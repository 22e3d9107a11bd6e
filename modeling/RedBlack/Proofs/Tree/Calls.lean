import RedBlack.Proofs.Tree.Check
import RedBlack.Proofs.Tree.Descent
import RedBlack.Proofs.Tree.Removal
import RedBlack.Tree.Calls

/-!
# Calls on a red-black tree

Every call takes a red-black tree to a red-black tree, and what it does to the nodes in
order is a list operation.

* `Holds` is the view of a tree as the list of its nodes.  `Becomes` adds to the outcome
  of a call that no record outside the new list was written.
* `Holds.insert`, `Holds.rebalance_link`, `Holds.remove` and `Holds.replace` are the calls
  on lists.  Each of them answers: the check that closes a call never fails.
* `remove_isRedBlack` and `link_rebalance_isRedBlack` say the same about shapes, from any
  red-black tree on.
-/

namespace RedBlack.Tree

open Shape

/-! ## Trees as lists -/

/-- A red-black tree with the nodes `xs` in order. -/
def Holds (t : Tree) (xs : List NodeId) : Prop :=
  ∃ s, t.Spells s ∧ s.IsRedBlack ∧ s.toList = xs

/-- The tree `t'` holds `xs`, and outside of `xs` its records are those of `t`. -/
structure Becomes (t t' : Tree) (xs : List NodeId) : Prop where
  holds : t'.Holds xs
  frame : ∀ i, i ∉ xs → t'.record i = t.record i

variable {t t' : Tree} {xs : List NodeId} {s : Shape} {n : NodeId}

/-- What a tree holds depends on the records of its nodes only. -/
theorem Holds.congr (h : t.Holds xs) (htop : t'.top = t.top)
    (hrecord : ∀ i ∈ xs, t'.record i = t.record i) : t'.Holds xs := by
  obtain ⟨s, hs, hrb, rfl⟩ := h
  exact ⟨s, ⟨htop.trans hs.top, hs.hangs.congr hrecord, hs.nodup⟩, hrb, rfl⟩

theorem holds_nil (h : t.top = none) : t.Holds [] :=
  ⟨leaf, ⟨h, trivial, List.nodup_nil⟩, ⟨rfl, trivial, trivial⟩, rfl⟩

theorem Holds.nodup (h : t.Holds xs) : xs.Nodup := by
  obtain ⟨s, hs, -, rfl⟩ := h
  exact hs.nodup

theorem Holds.length_le_bound (h : t.Holds xs) : xs.length ≤ t.bound := by
  obtain ⟨s, hs, -, rfl⟩ := h
  exact hs.length_le_bound

theorem Holds.mem_of_top (h : t.Holds xs) (hn : t.top = some n) : n ∈ xs := by
  obtain ⟨s, hs, -, rfl⟩ := h
  exact mem_toList_of_top (hs.top.symm.trans hn)

theorem Holds.top_eq_none_iff (h : t.Holds xs) : t.top = none ↔ xs = [] := by
  obtain ⟨s, hs, -, rfl⟩ := h
  rw [hs.top]
  cases s <;> simp [Shape.top, Shape.toList]

/-- The check finds the number of nodes. -/
theorem Holds.validate (h : t.Holds xs) :
    ∃ blackHeight height, t.validate = .ok ⟨xs.length, blackHeight, height⟩ := by
  obtain ⟨s, hs, hrb, rfl⟩ := h
  exact ⟨s.blackHeight, s.height, by rw [hs.validate hrb, stats, size_eq_length]⟩

/-- The nodes next to one of the tree are of the tree. -/
theorem Holds.mem_of_link (h : t.Holds xs) (hn : n ∈ xs) {m : NodeId}
    (hm : t.parent n = some m ∨ ∃ d, t.child n d = some m) : m ∈ xs := by
  obtain ⟨s, hs, -, rfl⟩ := h
  obtain ⟨p, c, l, r, -, rfl⟩ := exists_focus? hn
  obtain ⟨-, hhangs, -⟩ := spells_fill_iff.mp hs
  rw [Path.mem_toList_fill]
  rcases hm with hm | ⟨d, hm⟩
  · rw [parent_of_hangs hhangs rfl] at hm
    exact .inr (Path.mem_nodes_of_parent hm)
  · rw [← branch_slot d] at hhangs ⊢
    obtain ⟨⟨-, -, hslot, -⟩, -⟩ := hangs_branch.mp hhangs
    exact .inl (mem_toList_branch.mpr (.inr (.inl (mem_toList_of_top (hslot.symm.trans hm)))))

theorem Spells.commit (h : t'.Spells s) (hs : s.IsRedBlack) (t : Tree) :
    t.commit (.ok t') = .ok () t' := by
  rw [Tree.commit, checked, h.validate hs]

theorem Reshapes.becomes (h : t.Reshapes t' s) (hs : s.IsRedBlack) (hxs : s.toList = xs) :
    t.Becomes t' xs :=
  ⟨⟨s, h.spells, hs, hxs⟩, fun i hi => h.frame i (hxs ▸ hi)⟩

/-! ## Linking -/

/-- The repair of a new leaf succeeds and leaves a red-black tree. -/
theorem Spells.rebalance {p : Path} (h : t.Spells (p.fill (node .red leaf n leaf)))
    (hp : (p.fill leaf).IsRedBlack) :
    ∃ t', t.rebalance (some n) = .ok () t' ∧ t.Reshapes t' (insertAt p n) := by
  obtain ⟨k, hacc, -⟩ := isRedBlack_fill_iff.mp hp
  obtain ⟨t', hrepair, ht'⟩ := h.repairRed rfl rfl hacc.topBlack
  refine ⟨t', ?_, ht'⟩
  rw [Tree.rebalance, given, hrepair]
  exact ht'.spells.commit (isRedBlack_insertAt hp n) _

/-- Linking into an empty place and repairing. -/
theorem Spells.reshapes_rebalance_link {p : Path} (h : t.Spells (p.fill leaf))
    (hp : (p.fill leaf).IsRedBlack) (hn : n ∉ (p.fill leaf).toList) :
    ∃ t', (t.link n p.slot).rebalance (some n) = .ok () t' ∧ t.Reshapes t' (insertAt p n) := by
  have hnodes : n ∉ p.nodes := fun hi => hn (Path.mem_toList_fill.mpr (.inr hi))
  have hlink := h.reshapes_link hnodes
  obtain ⟨t', hrebalance, ht'⟩ := hlink.spells.rebalance hp
  refine ⟨t', hrebalance, hlink.trans ht' fun i hi => ?_⟩
  rwa [insertAt, toList_repairRed, ← Path.toList_fill]

theorem Spells.rebalance_link {p : Path} (h : t.Spells (p.fill leaf))
    (hp : (p.fill leaf).IsRedBlack) (hn : n ∉ (p.fill leaf).toList) :
    ∃ t', (t.link n p.slot).rebalance (some n) = .ok () t' ∧
      t.Becomes t' ((p.fill leaf).toList.insertIdx (p.slot.position (p.fill leaf).toList) n) := by
  obtain ⟨t', hrebalance, ht'⟩ := h.reshapes_rebalance_link hp hn
  refine ⟨t', hrebalance, ht'.becomes (isRedBlack_insertAt hp n) ?_⟩
  rw [toList_insertAt, Path.insertIdx_position h.nodup]

theorem Holds.rebalance_link {slot : Slot} (h : t.Holds xs) (hslot : t.Vacant xs slot)
    (hn : n ∉ xs) :
    ∃ t', (t.link n slot).rebalance (some n) = .ok () t' ∧
      t.Becomes t' (xs.insertIdx (slot.position xs) n) := by
  obtain ⟨s, hs, hrb, rfl⟩ := h
  obtain ⟨p, rfl, rfl⟩ := hs.exists_place hslot
  exact hs.rebalance_link hrb hn

/-- An insertion puts the node into the place that the way down ends at. -/
theorem Spells.insert (h : t.Spells s) (hs : s.IsRedBlack)
    (compare : NodeId → NodeId → Ordering) (hn : n ∉ s.toList) :
    ∃ t', t.insert compare (some n) = .ok () t' ∧
      t.Becomes t' ((seek (compare n) [] s).before ++ n :: (seek (compare n) [] s).after) := by
  have hput := insertIdx_seek h.nodup (compare n) n
  have hfill : (seek (compare n) [] s).fill leaf = s := fill_seek ..
  rw [Tree.insert, given, h.slotFor, ← hput]
  rw [← hfill] at h hs hn
  have hlink := h.rebalance_link hs hn
  rw [hfill] at hlink
  exact hlink

theorem Holds.insert (h : t.Holds xs) (compare : NodeId → NodeId → Ordering) (hn : n ∉ xs) :
    ∃ slot t', t.slotFor (compare n) = .ok slot ∧ t.insert compare (some n) = .ok () t' ∧
      t.Becomes t' (xs.insertIdx (slot.position xs) n) := by
  obtain ⟨s, hs, hrb, rfl⟩ := h
  obtain ⟨t', hinsert, ht'⟩ := hs.insert hrb compare hn
  rw [← insertIdx_seek hs.nodup] at ht'
  exact ⟨_, t', hs.slotFor _, hinsert, ht'⟩

/-! ## Removal and replacement -/

theorem Spells.remove {p : Path} {c : Color} {l r : Shape} (h : t.Spells (p.fill (node c l n r)))
    (hs : (p.fill (node c l n r)).IsRedBlack) :
    ∃ t', t.remove (some n) = .ok () t' ∧ t.Reshapes t' (removeAt p (node c l n r)) := by
  obtain ⟨t', hunlink, ht'⟩ := h.unlink hs
  refine ⟨t', ?_, ht'⟩
  rw [Tree.remove, given, hunlink]
  exact ht'.spells.commit (isRedBlack_removeAt hs) _

theorem Holds.remove (h : t.Holds xs) (hn : n ∈ xs) :
    ∃ t', t.remove (some n) = .ok () t' ∧ t.Becomes t' (xs.erase n) := by
  obtain ⟨s, hs, hrb, rfl⟩ := h
  obtain ⟨p, c, l, r, -, rfl⟩ := exists_focus? hn
  obtain ⟨t', hremove, ht'⟩ := hs.remove hrb
  exact ⟨t', hremove, ht'.becomes (isRedBlack_removeAt hrb) (toList_removeAt hs.nodup)⟩

/-- Which node stands in a place is no matter of the rules. -/
theorem isRedBlack_fill_node {p : Path} {c : Color} {l r : Shape} {m : NodeId}
    (h : (p.fill (node c l n r)).IsRedBlack) : (p.fill (node c l m r)).IsRedBlack := by
  obtain ⟨k, hacc, hbal⟩ := isRedBlack_fill_iff.mp h
  exact isRedBlack_fill_iff.mpr ⟨k, hacc, balanced_node.mpr (balanced_node.mp hbal)⟩

section Replace

variable {p : Path} {c : Color} {l r : Shape} {m : NodeId}

theorem Spells.replace_eq (h : t.Spells (p.fill (node c l n r)))
    (hs : (p.fill (node c l n r)).IsRedBlack) (hm : m ∉ (p.fill (node c l n r)).toList) :
    t.replace (some n) (some m) = .ok () (t.swapIn n m) :=
  (h.reshapes_swapIn hm).spells.commit (isRedBlack_fill_node hs) t

theorem Spells.replace (h : t.Spells (p.fill (node c l n r)))
    (hs : (p.fill (node c l n r)).IsRedBlack) (hm : m ∉ (p.fill (node c l n r)).toList) :
    ∃ t', t.replace (some n) (some m) = .ok () t' ∧ t.Reshapes t' (p.fill (node c l m r)) :=
  ⟨_, h.replace_eq hs hm, h.reshapes_swapIn hm⟩

end Replace

theorem Holds.replace {old new : NodeId} (h : t.Holds xs) (hold : old ∈ xs) (hnew : new ∉ xs) :
    ∃ t', t.replace (some old) (some new) = .ok () t' ∧
      t.Becomes t' (xs.replace old new) := by
  obtain ⟨s, hs, hrb, rfl⟩ := h
  obtain ⟨p, c, l, r, -, rfl⟩ := exists_focus? hold
  obtain ⟨t', hreplace, ht'⟩ := hs.replace hrb hnew
  refine ⟨t', hreplace, ht'.becomes (isRedBlack_fill_node hrb) ?_⟩
  rw [toList_fill_node, toList_fill_node,
    List.replace_append_right (notMem_before_of_nodup hs.nodup), List.replace_cons_self]

/-! ## From any red-black tree -/

/-- Removing any node of any red-black tree succeeds and takes exactly that node out of
the order. -/
theorem remove_isRedBlack (h : t.Spells s) (hs : s.IsRedBlack) (hn : n ∈ s.toList) :
    ∃ t' s', t.remove (some n) = .ok () t' ∧ t'.Spells s' ∧ s'.IsRedBlack ∧
      s'.toList = s.toList.erase n := by
  have hholds : t.Holds s.toList := ⟨s, h, hs, rfl⟩
  obtain ⟨t', hremove, ⟨s', ht', hs', hlist⟩, -⟩ := hholds.remove hn
  exact ⟨t', s', hremove, ht', hs', hlist⟩

/-- A node with two children goes, and the leftmost node on its right side was black. -/
theorem remove_isRedBlack_of_two_children :
    ∃ t' s', (Tree.build {} (node .black (node .black leaf 1 leaf) 5
        (node .red (node .black leaf 7 leaf) 8
          (node .black leaf 9 (node .red leaf 2 leaf))))).remove (some 5) = .ok () t' ∧
      t'.Spells s' ∧ s'.IsRedBlack ∧ s'.toList = [1, 7, 8, 9, 2] :=
  remove_isRedBlack (spells_build {} (by decide)) (by decide) (by decide)

/-- The slot on one side of a node puts what is linked there next to that node. -/
theorem exists_insertIdx_position {p : NodeId} (hp : p ∈ xs) (d : Side) (n : NodeId) :
    ∃ l r, xs = l ++ p :: r ∧
      xs.insertIdx ((Slot.under p d).position xs) n =
        l ++ match d with | .left => n :: p :: r | .right => p :: n :: r := by
  obtain ⟨l, r, rfl, hl⟩ := List.eq_append_cons_of_mem hp
  refine ⟨l, r, rfl, ?_⟩
  have hidx : (l ++ p :: r).idxOf p = l.length := by
    rw [List.idxOf_append_of_notMem hl, List.idxOf_cons_self, Nat.add_zero]
  rw [Slot.position, hidx]
  cases d with
  | left => exact insertIdx_append_length l (p :: r) n
  | right =>
    have hright := insertIdx_append_length (l ++ [p]) r n
    simpa [Side.index] using hright

/-- Linking a node, whatever its record says, into any empty slot of any red-black tree
and repairing the tree succeeds, and puts the node next to the one that the slot belongs
to. -/
theorem link_rebalance_isRedBlack {parent : Option NodeId} {d : Side} (h : t.Spells s)
    (hs : s.IsRedBlack) (hslot : t.Vacant s.toList (.below parent d)) (hn : n ∉ s.toList) :
    ∃ t' s',
      ((t.linkNode (some n) parent d).andThen fun () t => t.rebalance (some n)) = .ok () t' ∧
        t'.Spells s' ∧ s'.IsRedBlack ∧
        match parent, d with
        | none, _ => s = .leaf ∧ s'.toList = [n]
        | some p, .left => ∃ l r, s.toList = l ++ p :: r ∧ s'.toList = l ++ n :: p :: r
        | some p, .right => ∃ l r, s.toList = l ++ p :: r ∧ s'.toList = l ++ p :: n :: r := by
  have hholds : t.Holds s.toList := ⟨s, h, hs, rfl⟩
  obtain ⟨t', hlink, ⟨s', ht', hs', hlist⟩, -⟩ := hholds.rebalance_link hslot hn
  refine ⟨t', s', hlink, ht', hs', ?_⟩
  cases parent with
  | none =>
    obtain rfl : s = leaf := by
      cases s with
      | leaf => rfl
      | node => simp [Slot.below, Vacant, Shape.toList] at hslot
    exact ⟨rfl, hlist⟩
  | some p =>
    obtain ⟨l, r, hlr, hput⟩ := exists_insertIdx_position hslot.1 d n
    cases d with
    | left => exact ⟨l, r, hlr, hlist.trans hput⟩
    | right => exact ⟨l, r, hlr, hlist.trans hput⟩

/-- A node that still names another parent and a child goes to the inner side of a red
node below the top. -/
theorem link_rebalance_isRedBlack_of_stale :
    ∃ t' s',
      (((Tree.build {} (node .black (node .red leaf 3 leaf) 5 leaf)).setRecord 4
          ⟨some 3, .black, some 5, none⟩).linkNode (some 4) (some 3) .right).andThen
            (fun () t => t.rebalance (some 4)) = .ok () t' ∧
        t'.Spells s' ∧ s'.IsRedBlack ∧
        ∃ l r, [3, 5] = l ++ 3 :: r ∧ s'.toList = l ++ 3 :: 4 :: r :=
  link_rebalance_isRedBlack (s := node .black (node .red leaf 3 leaf) 5 leaf)
    ⟨rfl, (hangs_setRecord (by decide)).mpr (spells_build {} (by decide)).hangs, by decide⟩
    (by decide) (by decide) (by decide)

end RedBlack.Tree
