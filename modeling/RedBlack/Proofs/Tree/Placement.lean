import RedBlack.Proofs.Tree.Calls

/-!
# Where an insertion puts its node

A comparison is asked at the nodes on one way down only, and its answers need not fit
together.  The tree is balanced all the same, and the new node stands between those nodes of
the way that came before it and those that came after it.

* `Path.mem_before` and `Path.mem_after` put the nodes over a place on its two sides, and
  `Path.mem_way_of_getLast?` and `Path.mem_way_of_head?` say that the nodes next to the place
  are among them.
* `Shape.filter_eq_seek` says when the place cuts all nodes by their answers.
* `insert_any_comparison` is the result.  Where the answers turn from one side to the other
  once, they place the new node among all nodes and not only those of the way.
-/

namespace RedBlack

namespace Path

variable {p : Path} {f : Frame} {n : NodeId}

/-! ## The nodes over a place -/

theorem mem_way : n ∈ p.way ↔ ∃ f ∈ p, f.id = n := by
  rw [way, List.mem_reverse, List.mem_map]

/-- The place is to the right of a node whose right slot is open. -/
theorem mem_before (hf : f ∈ p) (hside : f.side = .right) : f.id ∈ p.before := by
  induction p with
  | nil => cases hf
  | cons g up ih =>
    rw [before]
    rcases List.mem_cons.mp hf with rfl | hf
    · simp [hside]
    · cases g.side with
      | left => exact ih hf
      | right => exact List.mem_append_left _ (List.mem_append_left _ (ih hf))

/-- The place is to the left of a node whose left slot is open. -/
theorem mem_after (hf : f ∈ p) (hside : f.side = .left) : f.id ∈ p.after := by
  induction p with
  | nil => cases hf
  | cons g up ih =>
    rw [after]
    rcases List.mem_cons.mp hf with rfl | hf
    · simp [hside]
    · cases g.side with
      | left => exact List.mem_append_right _ (ih hf)
      | right => exact ih hf

/-- The last node before a place is over it. -/
theorem mem_way_of_getLast? (h : p.before.getLast? = some n) : n ∈ p.way := by
  rw [mem_way]
  induction p with
  | nil => cases h
  | cons g up ih =>
    rw [before] at h
    cases hside : g.side with
    | left =>
      rw [hside] at h
      obtain ⟨f, hf, hn⟩ := ih h
      exact ⟨f, List.mem_cons_of_mem _ hf, hn⟩
    | right =>
      simp only [hside, List.getLast?_append, List.getLast?_singleton, Option.some_or] at h
      exact ⟨g, List.mem_cons_self, Option.some.inj h⟩

/-- The first node after a place is over it. -/
theorem mem_way_of_head? (h : p.after.head? = some n) : n ∈ p.way := by
  rw [mem_way]
  induction p with
  | nil => cases h
  | cons g up ih =>
    rw [after] at h
    cases hside : g.side with
    | left =>
      simp only [hside, List.cons_append, List.head?_cons] at h
      exact ⟨g, List.mem_cons_self, Option.some.inj h⟩
    | right =>
      rw [hside] at h
      obtain ⟨f, hf, hn⟩ := ih h
      exact ⟨f, List.mem_cons_of_mem _ hf, hn⟩

end Path

namespace Shape

variable {order : NodeId → Ordering} {s : Shape} {m : NodeId}

/-- The nodes on the way down that answer `lt` come after the place, and the others before
it. -/
theorem mem_of_mem_way (hm : m ∈ (seek order [] s).way) :
    if order m = .lt then m ∈ (seek order [] s).after else m ∈ (seek order [] s).before := by
  obtain ⟨f, hf, rfl⟩ := Path.mem_way.mp hm
  have hside := (side_of_mem_seek hf).resolve_left List.not_mem_nil
  by_cases hlt : order f.id = .lt
  · rw [if_pos hlt] at hside ⊢
    exact Path.mem_after hf hside
  · rw [if_neg hlt] at hside ⊢
    exact Path.mem_before hf hside

/-- Where no node that does not answer `lt` comes after one that does, the place cuts all
nodes by their answers. -/
theorem filter_eq_seek
    (h : s.toList.Pairwise fun m k => order m = .lt → order k = .lt) :
    s.toList.filter (fun m => order m ≠ .lt) = (seek order [] s).before ∧
      s.toList.filter (fun m => order m = .lt) = (seek order [] s).after := by
  obtain ⟨hbefore, hafter⟩ := order_seek (fun _ _ => id) h
  rw [toList_eq_seek order s, List.filter_append, List.filter_append]
  constructor
  · have hall : (seek order [] s).before.filter (fun m => order m ≠ .lt) =
        (seek order [] s).before :=
      List.filter_eq_self.mpr fun m hm => decide_eq_true (hbefore m hm)
    have hnone : (seek order [] s).after.filter (fun m => order m ≠ .lt) = [] :=
      List.filter_eq_nil_iff.mpr fun m hm => by simp [hafter m hm]
    rw [hall, hnone, List.append_nil]
  · have hall : (seek order [] s).after.filter (fun m => order m = .lt) =
        (seek order [] s).after :=
      List.filter_eq_self.mpr fun m hm => decide_eq_true (hafter m hm)
    have hnone : (seek order [] s).before.filter (fun m => order m = .lt) = [] :=
      List.filter_eq_nil_iff.mpr fun m hm => by simp [hbefore m hm]
    rw [hall, hnone, List.nil_append]

end Shape

namespace Tree

open Shape

variable {t : Tree} {s : Shape} {n : NodeId}

/-! ## The new node -/

/-- Whatever a comparison answers, an insertion succeeds and leaves a red-black tree, in which
the new node stands between two parts of the old order.  Of the nodes that the search looks at
those that the new one comes before are in the second part, and the others in the first; the
neighbours of the new node are among these nodes.  If no other answer comes after `lt` in the
old order, then the parts are all nodes with the other answers and all nodes with `lt`. -/
theorem insert_any_comparison (h : t.Spells s) (hs : s.IsRedBlack)
    (compare : NodeId → NodeId → Ordering) (hn : n ∉ s.toList) :
    ∃ t' s' l r, t.insert compare (some n) = .ok () t' ∧ t'.Spells s' ∧ s'.IsRedBlack ∧
      s.toList = l ++ r ∧ s'.toList = l ++ n :: r ∧
      (∀ m ∈ t.passed (slotFor.descend t (compare n)),
        if compare n m = .lt then m ∈ r else m ∈ l) ∧
      (∀ m, l.getLast? = some m ∨ r.head? = some m →
        m ∈ t.passed (slotFor.descend t (compare n))) ∧
      ((s.toList.Pairwise fun m k => compare n m = .lt → compare n k = .lt) →
        l = s.toList.filter (fun m => compare n m ≠ .lt) ∧
          r = s.toList.filter (fun m => compare n m = .lt)) := by
  obtain ⟨t', hinsert, ⟨s', ht', hs', hlist⟩, -⟩ := h.insert hs compare hn
  rw [h.passed_slotFor]
  refine ⟨t', s', _, _, hinsert, ht', hs', toList_eq_seek (compare n) s, hlist,
    fun m => mem_of_mem_way, fun m hm => ?_, fun hsorted => ?_⟩
  · rcases hm with hm | hm
    · exact Path.mem_way_of_getLast? hm
    · exact Path.mem_way_of_head? hm
  · obtain ⟨hl, hr⟩ := filter_eq_seek hsorted
    exact ⟨hl.symm, hr.symm⟩

/-- A comparison by the parity of the sum of two numbers, which is no order.  The search passes
three of five nodes, and comes to the slot between the second and the third; the first node
and the last one would have answered otherwise.  A comparison that puts the new node after two
of the nodes and before the others cuts the old order between them. -/
theorem insert_any_comparison_of_parity :
    let s : Shape := .node .black (.node .black .leaf 1 .leaf) 2
      (.node .red (.node .black .leaf 3 .leaf) 5 (.node .black .leaf 4 .leaf))
    let t := build {} s
    let compare : NodeId → NodeId → Ordering := fun n m => if (n + m) % 2 = 0 then .lt else .gt
    let cut : NodeId → NodeId → Ordering := fun _ m => if m ≤ 2 then .gt else .lt
    t.passed (slotFor.descend t (compare 7)) = [2, 5, 3] ∧
      (∃ t' s' l r, t.insert compare (some 7) = .ok () t' ∧ t'.Spells s' ∧ s'.IsRedBlack ∧
        [1, 2, 3, 5, 4] = l ++ r ∧ s'.toList = l ++ 7 :: r ∧
        (∀ m ∈ t.passed (slotFor.descend t (compare 7)),
          if compare 7 m = .lt then m ∈ r else m ∈ l) ∧
        (∀ m, l.getLast? = some m ∨ r.head? = some m →
          m ∈ t.passed (slotFor.descend t (compare 7)))) ∧
      ∃ t' s', t.insert cut (some 7) = .ok () t' ∧ t'.Spells s' ∧ s'.IsRedBlack ∧
        s'.toList = [1, 2] ++ 7 :: [3, 5, 4] := by
  intro s t compare cut
  have h : t.Spells s := spells_build {} (by decide)
  obtain ⟨t', s', l, r, hinsert, ht', hs', hcut, hlist, hpassed, hnext, -⟩ :=
    insert_any_comparison h (by decide) compare (n := 7) (by decide)
  refine ⟨by decide, ⟨t', s', l, r, hinsert, ht', hs', hcut, hlist, hpassed, hnext⟩, ?_⟩
  obtain ⟨t', s', l, r, hinsert, ht', hs', -, hlist, -, -, hsorted⟩ :=
    insert_any_comparison h (by decide) cut (n := 7) (by decide)
  obtain ⟨rfl, rfl⟩ := hsorted (by decide)
  exact ⟨t', s', hinsert, ht', hs', hlist⟩

end Tree

end RedBlack
