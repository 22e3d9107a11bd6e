import RedBlack.Proofs.Shape.Removal
import RedBlack.Proofs.Tree.Trail
import RedBlack.Tree.Descent

/-!
# Empty slots, and the way down to one

An empty slot of a tree is the slot of a place that holds a leaf.

* `Slot.position` counts the nodes before a slot, in a list of the nodes in order, and
  `Path.position_slot` says that it counts those before the place.
* `Spells.exists_place` finds the place of a slot that a caller names.
* `Shape.seek` is the way down by comparison, and `insertIdx_seek` says what comes of an
  insertion there.
* `visits_descend` says that the tree takes this way: `Spells.slotFor` is the slot that it
  comes to, and `Spells.passed_slotFor` the nodes that it looks at.
-/

namespace RedBlack

/-- The number of nodes before an empty slot, where `xs` are the nodes in order. -/
def Slot.position (xs : List NodeId) : Slot → Nat
  | .top => 0
  | .under p d => xs.idxOf p + d.index

theorem insertIdx_append_length (l r : List NodeId) (n : NodeId) :
    (l ++ r).insertIdx l.length n = l ++ n :: r := by
  induction l with
  | nil => rfl
  | cons a l ih =>
    rw [List.cons_append, List.length_cons, List.insertIdx_succ_cons, ih, List.cons_append]

namespace Path

open Shape

theorem toList_fill_leaf (p : Path) : (p.fill leaf).toList = p.before ++ p.after := by
  rw [toList_fill, toList, List.append_nil]

/-- What goes into an empty place goes to the position of its slot. -/
theorem position_slot {p : Path} (h : (p.fill leaf).toList.Nodup) :
    p.slot.position (p.fill leaf).toList = p.before.length := by
  rw [toList_fill_leaf] at h ⊢
  cases p with
  | nil => rfl
  | cons f up =>
    cases hd : f.side with
    | left =>
      simp only [before, after, hd] at h ⊢
      rw [List.cons_append, List.nodup_middle, List.nodup_cons, List.mem_append, not_or] at h
      simp [slot, Slot.position, hd, Side.index, List.idxOf_append_of_notMem h.1.1]
    | right =>
      simp only [before, after, hd] at h ⊢
      rw [List.append_assoc, List.singleton_append, List.nodup_middle, List.nodup_cons,
        List.mem_append, not_or] at h
      rw [List.append_assoc, List.singleton_append, slot, Slot.position, hd,
        List.idxOf_append_of_notMem h.1.1, List.idxOf_cons_self, Side.index]
      simp [Nat.add_assoc]

theorem insertIdx_position {p : Path} (h : (p.fill leaf).toList.Nodup) (n : NodeId) :
    (p.fill leaf).toList.insertIdx (p.slot.position (p.fill leaf).toList) n =
      p.before ++ n :: p.after := by
  rw [position_slot h, toList_fill_leaf, insertIdx_append_length]

/-- The nodes over a place, from the top down. -/
def way (p : Path) : List NodeId := (p.map Frame.id).reverse

theorem way_cons (f : Frame) (up : Path) : way (f :: up) = up.way ++ [f.id] := by
  rw [way, List.map_cons, List.reverse_cons, way]

/-- Where every frame is on the side that `order` chose, and `order` is the same on both
ends of `R` or turns to `lt`: before the place are the nodes that do not answer `lt`, and
after it those that do. -/
theorem order_around {order : NodeId → Ordering} {p : Path} {R : NodeId → NodeId → Prop}
    (hR : ∀ m k, R m k → order m = .lt → order k = .lt)
    (hside : ∀ f ∈ p, f.side = if order f.id = .lt then .left else .right)
    (hlist : (p.before ++ p.after).Pairwise R) :
    (∀ m ∈ p.before, order m ≠ .lt) ∧ ∀ m ∈ p.after, order m = .lt := by
  induction p with
  | nil => simp [before, after]
  | cons f up ih =>
    rw [List.forall_mem_cons] at hside
    obtain ⟨hf, hup⟩ := hside
    by_cases hlt : order f.id = .lt
    · rw [if_pos hlt] at hf
      simp only [before, after, hf] at hlist ⊢
      have hrest : (before up ++ after up).Pairwise R := by
        refine hlist.sublist ((List.Sublist.refl _).append ?_)
        exact List.sublist_append_right _ _
      obtain ⟨hbefore, hafter⟩ := ih hup hrest
      refine ⟨hbefore, fun m hm => ?_⟩
      rw [List.cons_append, List.mem_cons, List.mem_append] at hm
      rcases hm with rfl | hm | hm
      · exact hlt
      · have hfm : R f.id m := by
          rw [List.pairwise_append, List.cons_append, List.pairwise_cons] at hlist
          exact hlist.2.1.1 m (List.mem_append_left _ hm)
        exact hR _ _ hfm hlt
      · exact hafter m hm
    · rw [if_neg hlt] at hf
      simp only [before, after, hf] at hlist ⊢
      have hrest : (before up ++ after up).Pairwise R := by
        refine hlist.sublist (List.Sublist.append ?_ (List.Sublist.refl _))
        rw [List.append_assoc]
        exact List.sublist_append_left _ _
      obtain ⟨hbefore, hafter⟩ := ih hup hrest
      refine ⟨fun m hm => ?_, hafter⟩
      rw [List.mem_append, List.mem_append, List.mem_singleton] at hm
      rcases hm with (hm | hm) | rfl
      · exact hbefore m hm
      · have hmf : R m f.id := by
          rw [List.append_assoc, List.append_assoc, List.pairwise_append] at hlist
          rw [List.pairwise_append] at hlist
          exact hlist.2.1.2.2 m hm f.id List.mem_cons_self
        exact fun hm => hlt (hR _ _ hmf hm)
      · exact hlt

end Path

namespace Shape

/-! ## The way down -/

/-- The empty place that `order` leads to: to the left of nodes that it puts what is
sought before, and to the right of the others. -/
def seek (order : NodeId → Ordering) (up : Path) : Shape → Path
  | leaf => up
  | node c l n r =>
    if order n = .lt then seek order (⟨.left, c, n, r⟩ :: up) l
    else seek order (⟨.right, c, n, l⟩ :: up) r

/-- The place is empty, and it is one of the shape. -/
theorem fill_seek (order : NodeId → Ordering) (up : Path) (s : Shape) :
    (seek order up s).fill leaf = up.fill s := by
  fun_induction seek order up s with
  | case1 up => rfl
  | case2 up c l n r h ih => exact ih
  | case3 up c l n r h ih => exact ih

/-- The place cuts the nodes in order. -/
theorem toList_eq_seek (order : NodeId → Ordering) (s : Shape) :
    s.toList = (seek order [] s).before ++ (seek order [] s).after := by
  rw [← Path.toList_fill_leaf, fill_seek]
  rfl

/-- What goes into the slot of the place goes where the nodes are cut. -/
theorem insertIdx_seek {s : Shape} (hs : s.toList.Nodup) (order : NodeId → Ordering)
    (n : NodeId) :
    s.toList.insertIdx ((seek order [] s).slot.position s.toList) n =
      (seek order [] s).before ++ n :: (seek order [] s).after := by
  have hfill : (seek order [] s).fill leaf = s := fill_seek ..
  have hposition := Path.insertIdx_position (hfill ▸ hs) n
  rwa [hfill] at hposition

/-- The side of every node on the way is the one that `order` chose. -/
theorem side_of_mem_seek {order : NodeId → Ordering} {up : Path} {s : Shape} {f : Frame}
    (hf : f ∈ seek order up s) : f ∈ up ∨ f.side = if order f.id = .lt then .left else .right := by
  fun_induction seek order up s with
  | case1 up => exact .inl hf
  | case2 up c l n r h ih =>
    rcases ih hf with hf | hf
    · rcases List.mem_cons.mp hf with rfl | hf
      · exact .inr (by rw [if_pos h])
      · exact .inl hf
    · exact .inr hf
  | case3 up c l n r h ih =>
    rcases ih hf with hf | hf
    · rcases List.mem_cons.mp hf with rfl | hf
      · exact .inr (by rw [if_neg h])
      · exact .inl hf
    · exact .inr hf

/-- In a shape that is in order, the way down ends between the nodes that do not answer
`lt` and those that do. -/
theorem order_seek {order : NodeId → Ordering} {s : Shape} {R : NodeId → NodeId → Prop}
    (hR : ∀ m k, R m k → order m = .lt → order k = .lt) (hs : s.toList.Pairwise R) :
    (∀ m ∈ (seek order [] s).before, order m ≠ .lt) ∧
      ∀ m ∈ (seek order [] s).after, order m = .lt := by
  refine Path.order_around hR ?_ ?_
  · exact fun f hf => (side_of_mem_seek hf).resolve_left List.not_mem_nil
  · rwa [← toList_eq_seek]

end Shape

namespace Tree

open Shape

/-- One step down, to the child that the shape has there. -/
theorem descend_eq {t : Tree} {order : NodeId → Ordering} {n : NodeId} {d : Side} {x : Shape}
    (hd : (if order n = .lt then Side.left else .right) = d) (hx : t.child n d = x.top) :
    slotFor.descend t order n =
      .ok (match x.top with | none => .done (.under n d) | some c => .again c) := by
  simp only [slotFor.descend, hd, hx]
  cases x.top <;> rfl

theorem goesDown_slotFor (t : Tree) (order : NodeId → Ordering) :
    t.GoesDown (slotFor.descend t order) := by
  intro n m h
  refine ⟨if order n = .lt then .left else .right, ?_⟩
  simp only [slotFor.descend] at h
  split at h
  · cases h
  · next hc =>
    cases h
    exact hc

/-- A round goes on below the child, if there is one. -/
theorem visits_descend_cons {t : Tree} {order : NodeId → Ordering} {up : Path} {f : Frame}
    {x : Shape} (hchild : t.child f.id f.side = x.top)
    (hside : (if order f.id = .lt then Side.left else .right) = f.side)
    (hx : ∀ c, x.top = some c → ∃ xs,
      Visits (slotFor.descend t order) c xs (seek order (f :: up) x).slot ∧
        (seek order (f :: up) x).way = Path.way (f :: up) ++ xs) :
    ∃ xs, Visits (slotFor.descend t order) f.id xs (seek order (f :: up) x).slot ∧
      (seek order (f :: up) x).way = up.way ++ xs := by
  have hstep := descend_eq hside hchild
  cases htop : x.top with
  | none =>
    rw [htop] at hstep
    rw [top_eq_none_iff.mp htop]
    exact ⟨[f.id], .done hstep, Path.way_cons f up⟩
  | some c =>
    rw [htop] at hstep
    obtain ⟨xs, hvisits, hway⟩ := hx c htop
    refine ⟨f.id :: xs, .again hstep hvisits, ?_⟩
    rw [hway, Path.way_cons, List.append_assoc, List.singleton_append]

/-- The search looks at the nodes over the place that it comes to, and answers with the slot
of that place. -/
theorem visits_descend {t : Tree} {order : NodeId → Ordering} (up : Path) {s : Shape}
    {q : Option NodeId} {n : NodeId} (hs : s.Hangs t.store q) (hn : s.top = some n) :
    ∃ xs, Visits (slotFor.descend t order) n xs (seek order up s).slot ∧
      (seek order up s).way = up.way ++ xs := by
  induction s generalizing up q n with
  | leaf => cases hn
  | node c l m r ihl ihr =>
    cases hn
    obtain ⟨⟨-, -, hleft, hright⟩, hl, hr⟩ := (hangs_branch (d := .left)).mp hs
    rw [seek]
    by_cases hlt : order m = .lt
    · rw [if_pos hlt]
      exact visits_descend_cons (f := ⟨.left, c, m, r⟩) hleft (by rw [if_pos hlt])
        fun _ => ihl _ hl
    · rw [if_neg hlt]
      exact visits_descend_cons (f := ⟨.right, c, m, l⟩) hright (by rw [if_neg hlt])
        fun _ => ihr _ hr

/-- A tree takes the way down that its shape has. -/
theorem Spells.slotFor {t : Tree} {s : Shape} (h : t.Spells s) (order : NodeId → Ordering) :
    t.slotFor order = .ok (seek order [] s).slot := by
  rw [Tree.slotFor, h.top]
  cases hn : s.top with
  | none =>
    rw [top_eq_none_iff.mp hn]
    rfl
  | some n =>
    obtain ⟨xs, hvisits, -⟩ := visits_descend [] h.hangs hn
    exact (h.search_eq (t.goesDown_slotFor order) hn hvisits).1

/-- The search for a slot looks at the nodes over the place that it comes to. -/
theorem Spells.passed_slotFor {t : Tree} {s : Shape} (h : t.Spells s)
    (order : NodeId → Ordering) :
    t.passed (slotFor.descend t order) = (seek order [] s).way := by
  cases hn : s.top with
  | none =>
    rw [passed, h.top, top_eq_none_iff.mp hn]
    rfl
  | some n =>
    obtain ⟨xs, hvisits, hway⟩ := visits_descend [] h.hangs hn
    rw [(h.search_eq (t.goesDown_slotFor order) hn hvisits).2, hway]
    rfl

/-! ## Slots that a caller names -/

/-- A slot of the tree that holds nothing. -/
def Vacant (t : Tree) (xs : List NodeId) : Slot → Prop
  | .top => xs = []
  | .under p d => p ∈ xs ∧ t.child p d = none

instance (t : Tree) (xs : List NodeId) : (slot : Slot) → Decidable (t.Vacant xs slot)
  | .top => inferInstanceAs (Decidable (xs = []))
  | .under p d => inferInstanceAs (Decidable (p ∈ xs ∧ t.child p d = none))

/-- A vacant slot is that of an empty place. -/
theorem Spells.exists_place {t : Tree} {s : Shape} {slot : Slot} (h : t.Spells s)
    (hslot : t.Vacant s.toList slot) : ∃ p : Path, s = p.fill leaf ∧ slot = p.slot := by
  cases slot with
  | top =>
    refine ⟨[], ?_, rfl⟩
    cases s with
    | leaf => rfl
    | node c l n r => simp [Vacant, Shape.toList] at hslot
  | under n d =>
    obtain ⟨hn, hchild⟩ := hslot
    obtain ⟨p, c, l, r, -, rfl⟩ := exists_focus? hn
    obtain ⟨-, hhangs, -⟩ := spells_fill_iff.mp h
    rw [← branch_slot d] at hhangs ⊢
    obtain ⟨⟨-, -, htop, -⟩, -⟩ := hangs_branch.mp hhangs
    have hleaf : (node c l n r).slot d = leaf := top_eq_none_iff.mp (htop.symm.trans hchild)
    rw [hleaf]
    exact ⟨⟨d, c, n, (node c l n r).slot d.opposite⟩ :: p, rfl, rfl⟩

end Tree

end RedBlack
