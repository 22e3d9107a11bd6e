import RedBlack.Proofs.Shape.InsertionCases
import RedBlack.Proofs.Shape.RemovalCases
import RedBlack.Proofs.Tree.Calls

/-!
# Repairs on records go by the cases

The repairs on link records put off writes from one case to the next: between two rotations
the slot of the upper node and some parent links are stale, and colours are set by the last
rotation only.  What they leave is nevertheless what the cases on shapes say, for a new
leaf (`rebalance_follows_cases`) and for the removal of a node (`remove_follows_cases`).
-/

namespace RedBlack.Tree

open Shape

variable {t : Tree} {s : Shape} {p : Path} {n : NodeId}

/-- After a red leaf was linked into an empty place of a red-black tree, the repair succeeds,
and the tree it leaves is the one shape that comes out of the cases. -/
theorem rebalance_follows_cases (h : t.Spells (p.fill (node .red leaf n leaf)))
    (hp : (p.fill leaf).IsRedBlack) :
    ∃ t', t.rebalance (some n) = .ok () t' ∧ t'.Spells (insertAt p n) ∧
      ∀ s', RedRepair p (node .red leaf n leaf) s' ↔ s' = insertAt p n := by
  obtain ⟨k, hacc, -⟩ := isRedBlack_fill_iff.mp hp
  obtain ⟨t', hrebalance, ht'⟩ := h.rebalance hp
  refine ⟨t', hrebalance, ht'.spells, ?_⟩
  intro s'
  exact redRepair_iff hacc.of_false rfl

/-- The new leaf 4 is an inner grandchild and takes two rotations. -/
theorem rebalance_follows_cases_of_inner :
    ∃ t', (Tree.build {} (node .black (node .red leaf 3 (node .red leaf 4 leaf)) 5
        leaf)).rebalance (some 4) = .ok () t' ∧
      t'.Spells (node .black (node .red leaf 3 leaf) 4 (node .red leaf 5 leaf)) ∧
      ∀ s', RedRepair [⟨.right, .red, 3, leaf⟩, ⟨.left, .black, 5, leaf⟩]
          (node .red leaf 4 leaf) s' ↔
        s' = node .black (node .red leaf 3 leaf) 4 (node .red leaf 5 leaf) :=
  rebalance_follows_cases (p := [⟨.right, .red, 3, leaf⟩, ⟨.left, .black, 5, leaf⟩])
    (spells_build {} (by decide)) (by decide)

/-- Removing any node of a red-black tree succeeds, and the tree it leaves is the one shape
that comes out of the cases. -/
theorem remove_follows_cases (h : t.Spells s) (hs : s.IsRedBlack) (hn : n ∈ s.toList) :
    ∃ t', t.remove (some n) = .ok () t' ∧ t'.Spells (s.remove n) ∧
      ∀ s', Removal n s s' ↔ s' = s.remove n := by
  obtain ⟨p, c, l, r, -, rfl⟩ := exists_focus? hn
  obtain ⟨t', hremove, ht'⟩ := h.remove hs
  refine ⟨t', hremove, ?_, ?_⟩
  · rw [remove_fill h.nodup]
    exact ht'.spells
  · intro s'
    exact removal_iff hs h.nodup hn

/-- Node 7 takes the place of 5 and leaves a black node lacking below it, and the sibling
has a red near child only. -/
theorem remove_follows_cases_of_near :
    ∃ t', (Tree.build {} (node .black (node .black leaf 2 (node .red leaf 3 leaf)) 5
        (node .black leaf 7 leaf))).remove (some 5) = .ok () t' ∧
      t'.Spells (node .black (node .black leaf 2 leaf) 3 (node .black leaf 7 leaf)) ∧
      ∀ s', Removal 5 (node .black (node .black leaf 2 (node .red leaf 3 leaf)) 5
          (node .black leaf 7 leaf)) s' ↔
        s' = node .black (node .black leaf 2 leaf) 3 (node .black leaf 7 leaf) :=
  remove_follows_cases (spells_build {} (by decide)) (by decide) (by decide)

end RedBlack.Tree
