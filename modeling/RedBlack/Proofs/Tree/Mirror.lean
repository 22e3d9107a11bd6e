import RedBlack.Proofs.Shape.Mirror
import RedBlack.Proofs.Tree.Renaming

/-!
# Repairs of a mirrored tree

On records the sides are not treated alike.  Where a node hangs is found by comparing links with
one of the two slots, and with an absent child that comparison alone tells nothing.  That the
outcome is nevertheless the same in the mirror follows from what the links of a tree are: no two
slots of it hold the same node, and of a short node the other slot is not empty.

* `Tree.flip` exchanges the two child slots of all records.
* `Reshapes.flip_eq` is the way from shapes to records.
* `repairs_mirror` is the result: after linking a node, and for removals that do not move another
  node into the place.
-/

namespace RedBlack

/-- The slot on the other side. -/
def Slot.flip : Slot → Slot
  | top => top
  | under p d => under p d.opposite

namespace Tree

open Shape

/-- The tree with the two child slots of every record exchanged. -/
def flip (t : Tree) : Tree := { t with store := ⟨t.store.cells.map Record.flip⟩ }

variable {t t' t'' : Tree} {s : Shape} {p : Path} {n : NodeId} {slot : Slot}

theorem record_flip (t : Tree) (n : NodeId) : t.flip.record n = (t.record n).flip := by
  simp only [record, flip, Table.get_eq_getElem?, Array.getElem?_map]
  cases t.store.cells[n]? <;> rfl

theorem hangs_flip {q : Option NodeId} (h : s.Hangs t.store q) : s.flip.Hangs t.flip.store q := by
  induction s generalizing q with
  | leaf => trivial
  | node c l n r ihl ihr =>
    obtain ⟨hn, hl, hr⟩ := h
    refine ⟨?_, ihr hr, ihl hl⟩
    rw [top_flip, top_flip]
    exact (record_flip t n).trans (congrArg Record.flip hn)

theorem Spells.flip (h : t.Spells s) : t.flip.Spells s.flip where
  top := h.top.trans (top_flip s).symm
  hangs := hangs_flip h.hangs
  nodup := by
    rw [toList_flip, List.nodup_reverse]
    exact h.nodup

theorem slot_flip (p : Path) : p.flip.slot = p.slot.flip := by
  cases p <;> rfl

/-- Mirrored shapes have mirrored records, and all other records are as they were. -/
theorem Reshapes.flip_sameRecords (h : t.Reshapes t' s) (h' : t.flip.Reshapes t'' s.flip) :
    t'.flip.SameRecords t'' := by
  have hsame : t'.flip.SameBut t'' [] := by
    refine h.spells.flip.sameBut h'.spells fun i hi _ => ?_
    have hs : i ∉ s.toList := by
      rwa [toList_flip, List.mem_reverse] at hi
    rw [h'.frame i hi, record_flip, record_flip, h.frame i hs]
  exact ⟨hsame.top, fun i => hsame.record i List.not_mem_nil⟩

/-! ## Mirrored calls -/

/-- Linking and repairing in the mirror. -/
theorem Spells.rebalance_link_flip (h : t.Spells (p.fill leaf)) (hp : (p.fill leaf).IsRedBlack)
    (hn : n ∉ (p.fill leaf).toList) :
    ∃ t' t'', (t.link n p.slot).rebalance (some n) = .ok () t' ∧
      (t.flip.link n p.slot.flip).rebalance (some n) = .ok () t'' ∧ t'.flip.SameRecords t'' := by
  have hflip : t.flip.Spells (p.flip.fill leaf) := flip_fill p leaf ▸ h.flip
  have hpflip : (p.flip.fill leaf).IsRedBlack := flip_fill p leaf ▸ isRedBlack_flip.mpr hp
  have hnflip : n ∉ (p.flip.fill leaf).toList := by
    have hlist := flip_fill p leaf ▸ toList_flip (p.fill leaf)
    rw [Shape.flip] at hlist
    rwa [hlist, List.mem_reverse]
  obtain ⟨t', hlink, ht'⟩ := h.reshapes_rebalance_link hp hn
  obtain ⟨t'', hlink', ht''⟩ := hflip.reshapes_rebalance_link hpflip hnflip
  rw [← flip_insertAt] at ht''
  rw [slot_flip] at hlink'
  exact ⟨t', t'', hlink, hlink', ht'.flip_sameRecords ht''⟩

/-- Removing in the mirror, where a node has not both children. -/
theorem Spells.remove_flip {c : Color} {l r : Shape} (h : t.Spells (p.fill (node c l n r)))
    (hs : (p.fill (node c l n r)).IsRedBlack) (hchild : l = leaf ∨ r = leaf) :
    ∃ t' t'', t.remove (some n) = .ok () t' ∧ t.flip.remove (some n) = .ok () t'' ∧
      t'.flip.SameRecords t'' := by
  have hfill : (p.fill (node c l n r)).flip = p.flip.fill (node c r.flip n l.flip) :=
    flip_fill p _
  have hflip : t.flip.Spells (p.flip.fill (node c r.flip n l.flip)) := hfill ▸ h.flip
  have hsflip : (p.flip.fill (node c r.flip n l.flip)).IsRedBlack :=
    hfill ▸ isRedBlack_flip.mpr hs
  obtain ⟨t', hremove, ht'⟩ := h.remove hs
  obtain ⟨t'', hremove', ht''⟩ := hflip.remove hsflip
  rw [← flip_removeAt hchild] at ht''
  exact ⟨t', t'', hremove, hremove', ht'.flip_sameRecords ht''⟩

/-- The repairs are the same on both sides.  Of a red-black tree and of its mirror, calls on
mirrored slots leave mirrored trees: the same top, and of every node the same parent and
colour, with its children exchanged.

* A node is linked into any vacant slot, or into the slot on the other side in the mirror, and
  the tree is repaired.
* A node is removed that lacks a child. -/
theorem repairs_mirror (h : t.Spells s) (hs : s.IsRedBlack) :
    (∀ n slot, n ∉ s.toList → t.Vacant s.toList slot →
      ∃ t' t'', (t.link n slot).rebalance (some n) = .ok () t' ∧
        (t.flip.link n slot.flip).rebalance (some n) = .ok () t'' ∧ t'.flip.SameRecords t'') ∧
    ∀ n ∈ s.toList, (∃ d, t.child n d = none) →
      ∃ t' t'', t.remove (some n) = .ok () t' ∧ t.flip.remove (some n) = .ok () t'' ∧
        t'.flip.SameRecords t'' := by
  constructor
  · intro n slot hn hslot
    obtain ⟨p, rfl, rfl⟩ := h.exists_place hslot
    exact h.rebalance_link_flip hs hn
  · rintro n hn ⟨d, hd⟩
    obtain ⟨p, c, l, r, -, rfl⟩ := exists_focus? hn
    obtain ⟨-, hhangs, -⟩ := spells_fill_iff.mp h
    obtain ⟨⟨-, -, hleft, hright⟩, -⟩ := (hangs_branch (d := .left)).mp hhangs
    refine h.remove_flip hs ?_
    cases d with
    | left => exact .inl (top_eq_none_iff.mp (hleft.symm.trans hd))
    | right => exact .inr (top_eq_none_iff.mp (hright.symm.trans hd))

/-- Node 4 is linked as an inner grandchild.  Node 1 goes and leaves a deficit next to a red
sibling.  A stale record outside of the tree is mirrored as well. -/
theorem repairs_mirror_of_inner :
    let s : Shape := .node .black (.node .black .leaf 1 .leaf) 5
      (.node .red (.node .black .leaf 7 .leaf) 8
        (.node .black .leaf 9 (.node .red .leaf 2 .leaf)))
    let t := (build {} s).setRecord 3 ⟨some 5, .black, some 1, none⟩
    t.Spells s ∧ s.IsRedBlack ∧ 4 ∉ s.toList ∧ t.Vacant s.toList (.under 2 .left) ∧
      (∃ t' t'', (t.link 4 (.under 2 .left)).rebalance (some 4) = .ok () t' ∧
        (t.flip.link 4 (.under 2 .right)).rebalance (some 4) = .ok () t'' ∧
        t'.flip.SameRecords t'') ∧
      1 ∈ s.toList ∧ t.child 1 .left = none ∧
      ∃ t' t'', t.remove (some 1) = .ok () t' ∧ t.flip.remove (some 1) = .ok () t'' ∧
        t'.flip.SameRecords t'' := by
  intro s t
  have h : t.Spells s :=
    ⟨rfl, (hangs_setRecord (by decide)).mpr (spells_build {} (by decide)).hangs, by decide⟩
  have hs : s.IsRedBlack := by decide
  have hn : 4 ∉ s.toList := by decide
  have hslot : t.Vacant s.toList (.under 2 .left) := by decide +kernel
  have hm : 1 ∈ s.toList := by decide
  have hchild : t.child 1 .left = none := by decide +kernel
  obtain ⟨hlink, hremove⟩ := repairs_mirror h hs
  exact ⟨h, hs, hn, hslot, hlink 4 _ hn hslot, hm, hchild, hremove 1 hm ⟨.left, hchild⟩⟩

end Tree

end RedBlack
