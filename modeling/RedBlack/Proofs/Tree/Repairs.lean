import RedBlack.Proofs.Tree.Deficit
import RedBlack.Proofs.Tree.Descent

/-!
# Repairs of any fault of their kind

The repair of a deficit is called after a node was taken out, and that of a red node after one
was linked.  Neither asks where its fault comes from.  Here the fault is said of the links of a
whole tree, and the repair mends it wherever it is and whatever hangs below it and beside it.

* `level_of_ways` reads the black heights around a place off the ways that go past it, as
  `descends_fill` counts the ways when the black heights are known.
* `Spells.shortBelow_iff` says that `ShortBelow` is all that the repair of a deficit relies on, and
  `repairDeficit_isRedBlack` is that repair.
* `OnlyRed` says that the colours have nothing against them but one node.  By
  `redRed_mem_innerViolations` this follows from the list of violations.  Painted black, the node
  fits (`Spells.noRedRed_of_onlyRed`), so that its place accepts a black top, which is the
  invariant of the repair of a red node.  `repairRed_isRedBlack` is that repair.
-/

namespace RedBlack

open Shape

namespace Tree

variable {t : Tree} {s x : Shape} {f : Frame} {p up : Path} {rest : List NodeId} {k : Nat}

/-! ## Black heights by ways -/

/-- A shape has a black height when all ways down it pass that many black nodes. -/
theorem hasBlackHeight_of_ways (hs : s.Drawn t)
    (hways : ∀ way, t.Descends s.top way → t.blacks way = k) : s.HasBlackHeight k := by
  induction s generalizing k with
  | leaf => exact (hways [] .absent).symm
  | node c l n r ihl ihr =>
    obtain ⟨⟨hcolor, -⟩, hl, hr⟩ := id hs
    have hbelow : ∀ rest, t.Descends l.top rest ∨ t.Descends r.top rest →
        t.blacks rest + c.weight = k := by
      intro rest hrest
      rw [← blacks_cons hcolor]
      exact hways _ ((descends_node_iff hs).mpr ⟨rest, rfl, hrest⟩)
    obtain ⟨first, hfirst, -⟩ := exists_descends_height hl
    have hk := hbelow first (.inl hfirst)
    refine ⟨t.blacks first, hk.symm, ihl hl fun rest hrest => ?_, ihr hr fun rest hrest => ?_⟩
    · have := hbelow rest (.inl hrest)
      omega
    · have := hbelow rest (.inr hrest)
      omega

/-- A way down from either slot of a node is the end of a way down from the top. -/
theorem exists_descends_fill (hs : (Path.fill (f :: up) x).Drawn t)
    (hrest : t.Descends x.top rest ∨ t.Descends f.other.top rest) :
    ∃ way, t.Descends (Path.fill (f :: up) x).top way ∧
      way.getLast? = (f.id :: rest).getLast? ∧
      t.blacks way = t.blacks rest + Path.weight (f :: up) := by
  induction up generalizing f x rest with
  | nil =>
    have hclose : (f.close x).Drawn t := hs
    obtain ⟨⟨hcolor, -⟩, -⟩ := drawn_branch.mp hclose
    refine ⟨f.id :: rest, ?_, rfl, blacks_cons hcolor⟩
    rw [Path.fill, Path.fill, top_close]
    exact (descends_branch_iff hclose).mpr ⟨rest, rfl, hrest⟩
  | cons g up ih =>
    have hclose : (f.close x).Drawn t := drawn_of_fill (p := g :: up) hs
    obtain ⟨⟨hcolor, -⟩, -⟩ := drawn_branch.mp hclose
    have hnode : t.Descends (f.close x).top (f.id :: rest) := by
      rw [top_close]
      exact (descends_branch_iff hclose).mpr ⟨rest, rfl, hrest⟩
    obtain ⟨way, hway, hlast, hblacks⟩ := ih (f := g) hs (.inl hnode)
    refine ⟨way, hway, by rw [hlast, List.getLast?_cons_cons], ?_⟩
    rw [hblacks, blacks_cons hcolor, Path.weight, Path.weight, Path.weight]
    omega

/-- Where the ways beside a place all pass the same number of black nodes, the place is level. -/
theorem level_of_ways (hs : (p.fill x).Drawn t)
    (hways : ∀ way m, t.Descends (p.fill x).top way → way.getLast? = some m → m ∈ p.nodes →
      t.blacks way = k + p.weight) : p.Level k := by
  induction p generalizing x k with
  | nil => trivial
  | cons f up ih =>
    obtain ⟨-, -, hother⟩ := drawn_branch.mp (drawn_of_fill (p := up) (s := f.close x) hs)
    refine ⟨hasBlackHeight_of_ways hother fun rest hrest => ?_,
      ih (x := f.close x) hs fun way m hway hlast hm => ?_⟩
    · obtain ⟨way, hway, hlast, hblacks⟩ := exists_descends_fill hs (.inr hrest)
      -- The way ends in the other slot or, if that is empty, at the node itself.
      obtain ⟨m, hm⟩ : ∃ m, (f.id :: rest).getLast? = some m := ⟨_, List.getLast?_cons⟩
      have hmem : m ∈ Path.nodes (f :: up) := by
        rw [Path.mem_nodes_cons]
        rcases List.mem_cons.mp (List.mem_of_getLast? hm) with rfl | hbelow
        · exact .inl rfl
        · exact .inr (.inl (mem_toList_of_descends hother hrest hbelow))
      have := hways way m hway (hlast.trans hm) hmem
      omega
    · have := hways way m hway hlast (Path.mem_nodes_cons.mpr (.inr (.inr hm)))
      rw [this, Path.weight]
      omega

/-! ## The repair of a deficit -/

/-- The other slot of a node with a deficit is not empty. -/
theorem Spells.other_ne_leaf (h : t.Spells (Path.fill (f :: up) leaf))
    (hshort : t.ShortBelow f.id) : f.other ≠ leaf := by
  obtain ⟨⟨⟨-, -, hhole, hchild⟩, -⟩, -⟩ := spells_fill_iff.mp h
  obtain ⟨d, -, hfull⟩ := hshort.slot
  intro hleaf
  rw [hleaf] at hchild
  by_cases hd : d = f.side
  · exact hfull (hd ▸ hchild)
  · rw [Side.eq_opposite_of_ne hd, Side.opposite_opposite] at hfull
    exact hfull hhole

/-- In a tree with right colours there is a deficit below a node exactly when its empty slot asks
for one black node, and for nothing else. -/
theorem Spells.shortBelow_iff (h : t.Spells (Path.fill (f :: up) leaf))
    (hblack : (Path.fill (f :: up) leaf).isRed = false)
    (hred : (Path.fill (f :: up) leaf).NoRedRed) :
    t.ShortBelow f.id ↔ Path.Accepts (f :: up) false 1 := by
  refine ⟨fun hshort => ?_, h.shortBelow⟩
  obtain ⟨⟨htop, hdrawn, -⟩, -⟩ := spells_iff.mp h
  obtain ⟨-, -, -, hnodes, -⟩ := spells_fill_iff.mp h
  rw [Path.nodes, List.nodup_cons, List.mem_append, not_or] at hnodes
  obtain ⟨⟨-, hnotUp⟩, -⟩ := hnodes
  obtain ⟨-, -, hother⟩ := drawn_branch.mp (drawn_of_fill (p := up) (s := f.close leaf) hdrawn)
  obtain ⟨short, hdown, hlast, hblacks⟩ := exists_descends_fill hdrawn (.inl .absent)
  -- Every way that does not end in the empty slot is compared with the one that does.
  have hlong : ∀ way, t.Descends (Path.fill (f :: up) leaf).top way →
      way.getLast? ≠ some f.id → t.blacks way = 1 + Path.weight (f :: up) := by
    intro way hway hne
    rw [← htop] at hdown hway
    have hways := hshort.ways short way hdown hway hlast hne
    rw [hblacks, blacks, List.countP_nil] at hways
    omega
  have hlevel : Path.Level (f :: up) 1 := by
    refine ⟨hasBlackHeight_of_ways hother fun rest hrest => ?_,
      level_of_ways (x := f.close leaf) hdrawn fun way m hway hm hmem => ?_⟩
    · obtain ⟨way, hway, hend, hcount⟩ := exists_descends_fill hdrawn (.inr hrest)
      have hne := h.getLast?_ne_of_other (h.other_ne_leaf hshort) hrest
      have := hlong way hway (hend ▸ hne)
      omega
    · have hne : way.getLast? ≠ some f.id := by
        rw [hm]
        rintro ⟨⟩
        exact hnotUp hmem
      have := hlong way hway hne
      rw [this, Path.weight]
      omega
  exact (Path.accepts_iff.mpr ⟨hlevel, hblack, hred⟩).1

/-- Take any tree that hangs together, with a black top and no red node below a red one.  When
one slot of a node is empty, and the way that ends there passes one black node fewer than every
other way, then the repair from that node succeeds.  It leaves a red-black tree with the same nodes
in the same order, and writes no other record. -/
theorem repairDeficit_isRedBlack {n : NodeId} (h : t.Spells s) (hblack : s.isRed = false)
    (hred : s.NoRedRed) (hn : n ∈ s.toList) (hshort : t.ShortBelow n) :
    ∃ t' s', t.repairDeficit n = .ok t' ∧ t.Reshapes t' s' ∧ s'.IsRedBlack ∧
      s'.toList = s.toList := by
  obtain ⟨d, hempty, -⟩ := hshort.slot
  have hvacant : t.Vacant s.toList (.under n d) := ⟨hn, hempty⟩
  obtain ⟨place, rfl, hslot⟩ := h.exists_place hvacant
  cases place with
  | nil => cases hslot
  | cons f up =>
    cases hslot
    have hacc := (h.shortBelow_iff hblack hred).mp hshort
    obtain ⟨t', hrepair, ht'⟩ := h.repairDeficit hacc
    refine ⟨t', _, hrepair, ht', isRedBlack_repairDeficit hacc (balanced_leaf.mpr rfl) rfl, ?_⟩
    rw [toList_repairDeficit, ← Path.toList_fill]

/-- The deficit goes up to the top of the tree, which has a red child on the other side.  The near
child of that one has a red child on its own near side. -/
theorem repairDeficit_isRedBlack_of_climb :
    let near : Shape := .node .black
      (.node .red (.node .black .leaf 20 .leaf) 21 (.node .black .leaf 22 .leaf)) 5
      (.node .black .leaf 6 .leaf)
    let far : Shape := .node .black (.node .black .leaf 9 .leaf) 10 (.node .black .leaf 11 .leaf)
    let s : Shape := .node .black (.node .black .leaf 1 (.node .black .leaf 2 .leaf)) 3
      (.node .red near 8 far)
    let t := Tree.build {} s
    t.Spells s ∧ s.isRed = false ∧ s.NoRedRed ∧ 1 ∈ s.toList ∧ t.ShortBelow 1 ∧
      ∃ t' s', t.repairDeficit 1 = .ok t' ∧ t.Reshapes t' s' ∧ s'.IsRedBlack ∧
        s'.toList = [1, 2, 3, 20, 21, 22, 5, 6, 8, 9, 10, 11] := by
  intro near far s t
  have h : t.Spells s := spells_build {} (by decide)
  have hblack : s.isRed = false := by decide
  have hred : s.NoRedRed := by decide
  have hn : 1 ∈ s.toList := by decide
  -- A black leaf in the empty slot would make the shape red-black.
  let f : Frame := ⟨.left, .black, 1, .node .black .leaf 2 .leaf⟩
  let g : Frame := ⟨.left, .black, 3, .node .red near 8 far⟩
  have hfull : (Path.fill [f, g] (.node .black .leaf 0 .leaf)).IsRedBlack := by decide
  obtain ⟨k, hacc, -, hheight⟩ := isRedBlack_fill_iff.mp hfull
  obtain rfl : 1 = k := hheight.blackHeight_eq
  have hplace : t.Spells (Path.fill [f, g] .leaf) := h
  have hshort : t.ShortBelow 1 := hplace.shortBelow hacc
  exact ⟨h, hblack, hred, hn, hshort, repairDeficit_isRedBlack h hblack hred hn hshort⟩

/-! ## The repair of a red node -/

section Red

variable {n m x : NodeId} {d : Side} {parentOf : NodeId → Option NodeId}

/-- The rule that no red node has a red child, said of the links. -/
theorem noRedRed_iff_links (hs : s.Drawn t) :
    s.NoRedRed ↔ ∀ n ∈ s.toList, ∀ d m, t.child n d = some m →
      ¬(t.color n = .red ∧ t.color m = .red) := by
  induction s with
  | leaf => simp [NoRedRed, Shape.toList]
  | node c l n r ihl ihr =>
    obtain ⟨⟨hcolor, -⟩, hl, hr⟩ := id hs
    rw [NoRedRed, ihl hl, ihr hr, Shape.toList, List.forall_mem_append, List.forall_mem_cons,
      forall_child_iff hs, forall_top_color_iff hl, forall_top_color_iff hr, hcolor, imp_and]
    tauto

theorem redRed_mem_edgeViolations (hs : s.Drawn t) (hm : s.top = some m) (hred : t.color m = .red) :
    .redRed n m ∈ s.edgeViolations parentOf .red n := by
  cases s with
  | leaf => cases hm
  | node c l k r =>
    cases hm
    simp [edgeViolations, hs.1.1.symm.trans hred]

/-- A red child of a red node is among the violations. -/
theorem redRed_mem_innerViolations (hs : s.Drawn t) (hn : n ∈ s.toList)
    (hchild : t.child n d = some m) (hnred : t.color n = .red) (hmred : t.color m = .red) :
    .redRed n m ∈ s.innerViolations parentOf := by
  induction s with
  | leaf => cases hn
  | node c l k r ihl ihr =>
    obtain ⟨⟨hcolor, hleft, hright⟩, hl, hr⟩ := id hs
    simp only [innerViolations, List.mem_append]
    rw [Shape.toList, List.mem_append, List.mem_cons] at hn
    rcases hn with hn | rfl | hn
    · exact .inl (.inl (.inl (.inr (ihl hl hn))))
    · obtain rfl : c = .red := hcolor.symm.trans hnred
      cases d with
      | left =>
        refine .inl (.inl (.inl (.inl ?_)))
        exact redRed_mem_edgeViolations hl (hleft.symm.trans hchild) hmred
      | right =>
        refine .inl (.inl (.inr ?_))
        exact redRed_mem_edgeViolations hr (hright.symm.trans hchild) hmred
    · exact .inl (.inr (ihr hr hn))

/-- The colours have nothing against them but the node `x`: a red top is `x`, and a red child of
a red node is `x`. -/
structure OnlyRed (t : Tree) (xs : List NodeId) (x : NodeId) : Prop where
  top : ∀ n, t.top = some n → t.color n = .red → n = x
  child : ∀ n ∈ xs, ∀ d m, t.child n d = some m → t.color n = .red → t.color m = .red → m = x

theorem Outlines.onlyRed (h : t.Outlines s)
    (honly : ∀ v ∈ s.violations t.parent, v = .redTop x ∨ ∃ p, v = .redRed p x) :
    t.OnlyRed s.toList x where
  top := by
    intro n hn hred
    have hmem : Violation.redTop n ∈ s.violations t.parent := by
      rw [h.top] at hn
      cases s with
      | leaf => cases hn
      | node c l k r =>
        cases hn
        obtain rfl : c = .red := h.drawn.1.1.symm.trans hred
        simp [violations]
    simpa using honly _ hmem
  child := by
    intro n hn d m hchild hnred hmred
    have hmem : Violation.redRed n m ∈ s.violations t.parent := by
      have hinner : .redRed n m ∈ s.innerViolations t.parent :=
        redRed_mem_innerViolations h.drawn hn hchild hnred hmred
      cases s with
      | leaf => cases hn
      | node c l k r => exact List.mem_append_right _ hinner
    simpa using honly _ hmem

section Place

variable {l r : Shape}

/-- Once the node is painted black the colours are right. -/
theorem Spells.noRedRed_of_onlyRed (h : t.Spells (p.fill (node .red l x r)))
    (honly : t.OnlyRed (p.fill (node .red l x r)).toList x) :
    (p.fill (node .black l x r)).isRed = false ∧ (p.fill (node .black l x r)).NoRedRed := by
  have hpaint : t.Reshapes (t.setColor x .black) (p.fill (node .black l x r)) :=
    h.reshapes_setColor rfl .black
  obtain ⟨⟨htop, hdrawn, -⟩, -⟩ := spells_iff.mp hpaint.spells
  have hcolor : ∀ n, (t.setColor x .black).color n = .red → n ≠ x ∧ t.color n = .red := by
    intro n hn
    rw [color_setColor] at hn
    split at hn
    · cases hn
    · next hne => exact ⟨hne, hn⟩
  constructor
  · rw [← Bool.not_eq_true]
    intro hred
    obtain ⟨n, _, _, hn⟩ := exists_branch_of_isRed .left hred
    have hroot : (p.fill (node .black l x r)).top = some n := by rw [hn, top_branch]
    obtain ⟨hne, hnred⟩ := hcolor n ((color_of_drawn hdrawn hroot).mpr hred)
    exact hne (honly.top n (htop.trans hroot) hnred)
  · refine (noRedRed_iff_links hdrawn).mpr ?_
    rintro n hn d m hchild ⟨hn', hm'⟩
    obtain ⟨-, hnred⟩ := hcolor n hn'
    obtain ⟨hne, hmred⟩ := hcolor m hm'
    rw [child_setColor] at hchild
    rw [Path.mem_toList_fill] at hn
    exact hne (honly.child n (Path.mem_toList_fill.mpr hn) d m hchild hnred hmred)

/-- The children of the node are black: a red one would be another node with a red parent. -/
theorem Spells.isRed_below_of_onlyRed (h : t.Spells (p.fill (node .red l x r)))
    (honly : t.OnlyRed (p.fill (node .red l x r)).toList x) :
    l.isRed = false ∧ r.isRed = false := by
  obtain ⟨-, hhangs, hnodup, -⟩ := spells_fill_iff.mp h
  obtain ⟨hxl, hxr, -⟩ := (nodup_toList_branch (d := .left)).mp hnodup
  obtain ⟨hnode, -⟩ := hangs_iff.mp hhangs
  obtain ⟨⟨hcolor, hleft, hright⟩, hl, hr⟩ := id hnode
  have hself : ∀ d, t.child x d ≠ some x := by
    intro d
    cases d with
    | left => exact hleft ▸ top_ne_of_notMem hxl
    | right => exact hright ▸ top_ne_of_notMem hxr
  have hmem : x ∈ (p.fill (node .red l x r)).toList :=
    Path.mem_toList_fill.mpr (.inl (mem_toList_of_top rfl))
  have hchildren : ∀ d m, t.child x d = some m → ¬(t.color x = .red ∧ t.color m = .red) := by
    rintro d m hm ⟨hxred, hmred⟩
    exact hself d (honly.child x hmem d m hm hxred hmred ▸ hm)
  rw [forall_child_iff hnode, forall_top_color_iff hl, forall_top_color_iff hr] at hchildren
  exact ⟨hchildren.1 hcolor, hchildren.2 hcolor⟩

/-- So the place of the node accepts a black top, and what hangs there is balanced. -/
theorem Spells.accepts_of_onlyRed (h : t.Spells (p.fill (node .red l x r)))
    (heven : (p.fill (node .red l x r)).EvenPaths)
    (honly : t.OnlyRed (p.fill (node .red l x r)).toList x) :
    ∃ k, p.Accepts false k ∧ (node .red l x r).Balanced k := by
  obtain ⟨h', hblack⟩ := evenPaths_iff.mp heven
  obtain ⟨k, hlevel, hheight⟩ := Path.exists_level hblack
  have hcolors := h.noRedRed_of_onlyRed honly
  obtain ⟨hacc, -, hl, hr⟩ := Path.accepts_iff.mpr ⟨hlevel, hcolors⟩
  exact ⟨k, hacc, ⟨fun _ => h.isRed_below_of_onlyRed honly, hl, hr⟩, hheight⟩

end Place

/-- Take any tree that hangs together and in which from any node all ways pass the same number of
black nodes.  When all that is wrong with it is that some red node is the top or has a red parent,
then the repair from that node succeeds.  It leaves a red-black tree with the same nodes in the
same order, and writes no other record. -/
theorem repairRed_isRedBlack (h : t.Spells s) (heven : s.EvenPaths) (hx : x ∈ s.toList)
    (hred : t.color x = .red)
    (honly : ∀ v ∈ s.violations t.parent, v = .redTop x ∨ ∃ p, v = .redRed p x) :
    ∃ t' s', t.repairRed x = .ok t' ∧ t.Reshapes t' s' ∧ s'.IsRedBlack ∧
      s'.toList = s.toList := by
  obtain ⟨p, c, l, r, -, rfl⟩ := exists_focus? hx
  obtain ⟨houtlines, -⟩ := spells_iff.mp h
  obtain rfl : c = .red := (drawn_of_fill houtlines.drawn).1.1.symm.trans hred
  obtain ⟨k, hacc, hbal⟩ := h.accepts_of_onlyRed heven (houtlines.onlyRed honly)
  obtain ⟨t', hrepair, ht'⟩ := h.repairRed rfl rfl hacc.topBlack
  refine ⟨t', _, hrepair, ht', isRedBlack_repairRed hacc hbal rfl, ?_⟩
  rw [toList_repairRed, ← Path.toList_fill]

/-- The red goes up from a node that has two subtrees, and stops at the inner grandchild of a black
node, whose own two subtrees then move apart. -/
theorem repairRed_isRedBlack_of_inner :
    let fault : Shape := .node .black
      (.node .red (.node .red (.node .black .leaf 1 .leaf) 2 (.node .black .leaf 3 .leaf)) 4
        (.node .black .leaf 5 .leaf)) 6
      (.node .red (.node .black .leaf 7 .leaf) 8 (.node .black .leaf 9 .leaf))
    let s : Shape := .node .black
      (.node .red (.node .black (.node .black .leaf 10 .leaf) 11 (.node .black .leaf 12 .leaf)) 13
        fault) 14
      (.node .black (.node .black .leaf 15 .leaf) 16 (.node .black .leaf 17 .leaf))
    let t := Tree.build {} s
    t.Spells s ∧ s.EvenPaths ∧ 2 ∈ s.toList ∧ t.color 2 = .red ∧
      (∀ v ∈ s.violations t.parent, v = .redTop 2 ∨ ∃ p, v = .redRed p 2) ∧
      ∃ t' s', t.repairRed 2 = .ok t' ∧ t.Reshapes t' s' ∧ s'.IsRedBlack ∧
        s'.toList = [10, 11, 12, 13, 1, 2, 3, 4, 5, 6, 7, 8, 9, 14, 15, 16, 17] := by
  intro fault s t
  have h : t.Spells s := spells_build {} (by decide)
  have heven : s.EvenPaths := by decide
  have hx : 2 ∈ s.toList := by decide
  have hred : t.color 2 = .red := by decide +kernel
  have hlist : s.violations t.parent = [.redRed 4 2] := by decide +kernel
  have honly : ∀ v ∈ s.violations t.parent, v = .redTop 2 ∨ ∃ p, v = .redRed p 2 := by
    intro v hv
    rw [hlist, List.mem_singleton] at hv
    exact .inr ⟨4, hv⟩
  exact ⟨h, heven, hx, hred, honly, repairRed_isRedBlack h heven hx hred honly⟩

end Red

end Tree

end RedBlack
