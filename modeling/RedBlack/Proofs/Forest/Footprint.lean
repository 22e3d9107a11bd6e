import RedBlack.Proofs.Forest.Runs

/-!
# What a call on one tree leaves alone

One store holds the records of all nodes: those of the tree at hand, those of other trees, and
those of nodes that are linked nowhere and may still name any of the others.  A call on a tree
follows the links of that tree only, so that it writes no record but those of its own nodes.
The other records need not be in any order for that.

* `Forest.ChangesOnly` says where two forests may differ, and `Forest.Adds` that a node was
  put into a tree and nothing else happened.
* `calls_stay_in_tree` is the result, for both interfaces.
-/

namespace RedBlack

/-! ## Where a call writes -/

/-- The forest `g` differs from `f` at most in the records of `touched` and in the top of
tree `r`. -/
structure Forest.ChangesOnly (f g : Forest) (r : RootId) (touched : List NodeId) : Prop where
  records : ∀ i, i ∉ touched → g.links.record i = f.links.record i
  tops : ∀ r', r' ≠ r → g.tops.get r' = f.tops.get r'

namespace Forest

variable {f g : Forest} {r : RootId} {xs ys : List NodeId} {n : NodeId} {t t' : Tree}

theorem ChangesOnly.mono (h : f.ChangesOnly g r xs) (hsub : ∀ i ∈ xs, i ∈ ys) :
    f.ChangesOnly g r ys where
  records i hi := h.records i fun hx => hi (hsub i hx)
  tops := h.tops

theorem changesOnly_put (h : ∀ i, i ∉ xs → t'.record i = (f.tree r).record i) :
    f.ChangesOnly (f.put r t') r xs where
  records i hi := h i hi
  tops _ hr := tops_put_of_ne hr t'

/-- The node `n` was put among the nodes `xs` of tree `r`, by writing its record and theirs. -/
structure Adds (f g : Forest) (r : RootId) (xs : List NodeId) (n : NodeId) : Prop where
  holds : ∃ l₁ l₂, xs = l₁ ++ l₂ ∧ (g.tree r).Holds (l₁ ++ n :: l₂)
  changes : f.ChangesOnly g r (n :: xs)

theorem adds_put {l₁ l₂ : List NodeId} (h : (f.tree r).Becomes t' (l₁ ++ n :: l₂))
    (hxs : xs = l₁ ++ l₂) : f.Adds (f.put r t') r xs n where
  holds := by
    refine ⟨l₁, l₂, hxs, ?_⟩
    rw [tree_put_self]
    exact h.holds
  changes := by
    refine (changesOnly_put h.frame).mono fun i hi => ?_
    rw [hxs]
    exact List.perm_middle.mem_iff.mp hi

end Forest

/-! ## Calls on one tree -/

/-- A call on a red-black tree writes records of that tree only, whatever the other records of
the store say, and no other top.  This goes for either interface.

* Inserting a node, or linking it and repairing, writes that node and nodes of the tree.
* Removing a node writes nodes that stay in the tree.  The record of the node that goes is the
  one that it had.
* Replacing a node writes the new node, the slot of the parent or the top, and the parent links
  of the children.  The old node keeps its record. -/
theorem calls_stay_in_tree {f : Forest} {r : RootId} {s : Shape} (h : (f.tree r).Spells s)
    (hs : s.IsRedBlack) (via : Interface) :
    (∀ n, n ∉ s.toList →
      (∀ compare, ∃ g, (Move.insert r compare n).Does f g ∧ f.Adds g r s.toList n) ∧
      (∀ parent d, (f.tree r).Vacant s.toList (.below parent d) →
        ∃ g, (Move.link r n parent d via).Does f g ∧ f.Adds g r s.toList n) ∧
      (∀ slot, (f.tree r).Vacant s.toList slot →
        ∃ g, (Move.linkSlot r n slot via).Does f g ∧ f.Adds g r s.toList n)) ∧
    (∀ n ∈ s.toList, ∃ g, (Move.remove via r n).Does f g ∧
      (g.tree r).Holds (s.toList.erase n) ∧ f.ChangesOnly g r (s.toList.erase n) ∧
      g.links.record n = f.links.record n) ∧
    (∀ old ∈ s.toList, ∀ new, new ∉ s.toList → ∃ g, (Move.replace via r old new).Does f g ∧
      (f.tree r).Relinks (g.tree r) old new ∧
      ∀ r', r' ≠ r → g.tops.get r' = f.tops.get r') := by
  have hlink : ∀ n slot, n ∉ s.toList → (f.tree r).Vacant s.toList slot →
      ∃ t', ((f.tree r).link n slot).rebalance (some n) = .ok () t' ∧
        f.Adds (f.put r t') r s.toList n := by
    intro n slot hn hslot
    obtain ⟨p, rfl, rfl⟩ := h.exists_place hslot
    obtain ⟨t', hrebalance, ht'⟩ := h.rebalance_link hs hn
    rw [Path.insertIdx_position h.nodup] at ht'
    exact ⟨t', hrebalance, Forest.adds_put ht' p.toList_fill_leaf⟩
  refine ⟨fun n hn => ⟨?_, ?_, ?_⟩, ?_, ?_⟩
  · intro compare
    obtain ⟨t', hinsert, ht'⟩ := h.insert hs compare hn
    exact ⟨f.put r t', Forest.does_insert hinsert, Forest.adds_put ht' (Shape.toList_eq_seek ..)⟩
  · intro parent d hslot
    obtain ⟨t', hrebalance, ht'⟩ := hlink n _ hn hslot
    exact ⟨f.put r t', Forest.does_link hrebalance via, ht'⟩
  · intro slot hslot
    obtain ⟨t', hrebalance, ht'⟩ := hlink n slot hn hslot
    exact ⟨f.put r t', Forest.does_linkSlot hrebalance via, ht'⟩
  · intro n hn
    have hholds : (f.tree r).Holds s.toList := ⟨s, h, hs, rfl⟩
    obtain ⟨t', hremove, ht'⟩ := hholds.remove hn
    have hchanges : f.ChangesOnly (f.put r t') r (s.toList.erase n) :=
      Forest.changesOnly_put ht'.frame
    refine ⟨f.put r t', Forest.does_remove hremove via, ?_, hchanges, ?_⟩
    · rw [Forest.tree_put_self]
      exact ht'.holds
    · have hnot : n ∉ s.toList.erase n := h.nodup.not_mem_erase
      exact hchanges.records n hnot
  · intro old hold new hnew
    obtain ⟨p, c, a, b, -, rfl⟩ := Shape.exists_focus? hold
    have hreplace := h.replace_eq hs hnew
    refine ⟨f.put r _, Forest.does_replace hreplace via, ?_, fun r' hr => ?_⟩
    · rw [Forest.tree_put_self]
      exact h.relinks_swapIn hnew
    · exact Forest.tops_put_of_ne hr _

/-- Beside the tree there is another one, with node 9, and node 4 is linked nowhere but names
nodes of both. -/
theorem calls_stay_in_tree_of_stale :
    let s : Shape := .node .black (.node .red .leaf 3 .leaf) 5 (.node .red .leaf 7 .leaf)
    let t := ((Tree.build {} s).setRecord 4 ⟨some 3, .black, some 5, some 9⟩).setRecord 9
      ⟨none, .black, none, none⟩
    let f : Forest := { store := t.store, tops := (({} : Table _).set 0 t.top).set 1 (some 9) }
    (f.tree 0).Spells s ∧ s.IsRedBlack ∧
      (∃ g, (Move.insert 0 (fun n m => compare n m) 4).Does f g ∧ f.Adds g 0 [3, 5, 7] 4) ∧
      (∃ g, (Move.remove .status 0 5).Does f g ∧ (g.tree 0).Holds [3, 7] ∧
        f.ChangesOnly g 0 [3, 7] ∧ g.links.record 5 = f.links.record 5) ∧
      ∃ g, (Move.replace .plain 0 5 4).Does f g ∧ (f.tree 0).Relinks (g.tree 0) 5 4 ∧
        ∀ r, r ≠ 0 → g.tops.get r = f.tops.get r := by
  intro s t f
  have h : (f.tree 0).Spells s := by
    refine ⟨rfl, ?_, by decide⟩
    refine (Tree.hangs_setRecord (by decide)).mpr ((Tree.hangs_setRecord (by decide)).mpr ?_)
    exact (Tree.spells_build {} (by decide)).hangs
  have hs : s.IsRedBlack := by decide
  obtain ⟨hput, -, hreplace⟩ := calls_stay_in_tree h hs .plain
  obtain ⟨-, hremove, -⟩ := calls_stay_in_tree h hs .status
  exact ⟨h, hs, (hput 4 (by decide)).1 _, hremove 5 (by decide),
    hreplace 5 (by decide) 4 (by decide)⟩

end RedBlack
