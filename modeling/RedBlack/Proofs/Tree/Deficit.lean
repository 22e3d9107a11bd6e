import RedBlack.Proofs.Tree.Removal
import RedBlack.Proofs.Tree.Rules

/-!
# What taking a node out leaves

A splice takes a node out of a red-black tree and says where a black node is missing.  Here it
is said what this means for the links alone, by all ways down from the top, and that nothing else
is wrong with the tree.

* `descends_fill` sorts the ways down: through a place, or beside it.  `blacks_of_descends` counts
  the black nodes on those that are in a balanced shape.
* `ShortBelow p` is the deficit: the one way that ends in the empty slot of `p` passes one black
  node fewer than every other way.
* `splice_leaves` is what holds after a splice, of any node of any red-black tree.
-/

namespace RedBlack

open Shape

/-- The black nodes over a place. -/
def Path.weight : Path → Nat
  | [] => 0
  | f :: up => f.color.weight + weight up

namespace Tree

variable {t : Tree} {s : Shape} {p : Path} {way : List NodeId}

/-! ## Ways through a place and beside it -/

theorem drawn_branch {d : Side} {c : Color} {n : NodeId} {x y : Shape} :
    (branch d c n x y).Drawn t ↔
      (t.color n = c ∧ t.child n d = x.top ∧ t.child n d.opposite = y.top) ∧
        x.Drawn t ∧ y.Drawn t := by
  cases d with
  | left => exact Iff.rfl
  | right =>
    rw [branch, Drawn, Side.opposite]
    tauto

theorem drawn_of_fill (h : (p.fill s).Drawn t) : s.Drawn t := by
  induction p generalizing s with
  | nil => exact h
  | cons f up ih => exact (drawn_branch.mp (ih h)).2.1

/-- A way down from a node goes on in one of its slots. -/
theorem descends_branch_iff {d : Side} {c : Color} {n : NodeId} {x y : Shape}
    (hs : (branch d c n x y).Drawn t) :
    t.Descends (some n) way ↔
      ∃ rest, way = n :: rest ∧ (t.Descends x.top rest ∨ t.Descends y.top rest) := by
  cases d with
  | left => exact descends_node_iff hs
  | right =>
    rw [descends_node_iff hs]
    simp only [or_comm]

theorem mem_toList_of_descends {n : NodeId} (hs : s.Drawn t) (h : t.Descends s.top way)
    (hn : n ∈ way) : n ∈ s.toList := by
  induction s generalizing way with
  | leaf =>
    rw [descends_none_iff.mp h] at hn
    cases hn
  | node c l m r ihl ihr =>
    obtain ⟨rest, rfl, hrest⟩ := (descends_node_iff hs).mp h
    rw [Shape.toList, List.mem_append, List.mem_cons]
    rcases List.mem_cons.mp hn with rfl | hn
    · exact .inr (.inl rfl)
    · rcases hrest with hrest | hrest
      · exact .inl (ihl hs.2.1 hrest hn)
      · exact .inr (.inr (ihr hs.2.2 hrest hn))

/-- All ways down a balanced shape pass as many black nodes as its black height says. -/
theorem blacks_of_descends {k : Nat} (hs : s.Drawn t) (hk : s.Balanced k)
    (h : t.Descends s.top way) : t.blacks way = k :=
  hk.height.eq_of_mem_pathWeights ((mem_pathWeights_iff hs).mpr ⟨way, h, rfl⟩)

/-- A way down either comes through a place, and is then a way down what hangs there, or goes
past it and ends at a node around it.  In both cases its black nodes are known. -/
theorem descends_fill {red : Bool} {k : Nat} (hs : (p.fill s).Drawn t) (hp : p.Accepts red k)
    (h : t.Descends (p.fill s).top way) :
    (∃ down rest, way = down ++ rest ∧ t.Descends s.top rest ∧
      t.blacks way = t.blacks rest + p.weight) ∨
    (∃ m ∈ p.nodes, way.getLast? = some m) ∧ t.blacks way = k + p.weight := by
  induction p generalizing s red k with
  | nil => exact .inl ⟨[], way, rfl, h, rfl⟩
  | cons f up ih =>
    obtain ⟨-, hother, hup⟩ := hp
    obtain ⟨down, rest, rfl, hrest, hblacks⟩ | ⟨⟨m, hm, hlast⟩, hblacks⟩ := ih hs hup h
    · have hclose : (f.close s).Drawn t := drawn_of_fill (p := up) hs
      obtain ⟨⟨hcolor, -⟩, -, hdrawn⟩ := drawn_branch.mp hclose
      rw [top_close] at hrest
      obtain ⟨rest, rfl, hslot⟩ := (descends_branch_iff hclose).mp hrest
      rw [blacks_cons hcolor] at hblacks
      rcases hslot with hrest | hrest
      · refine .inl ⟨down ++ [f.id], rest, by simp, hrest, ?_⟩
        rw [hblacks, Path.weight]
        omega
      · -- The way goes into the other slot of the frame.
        refine .inr ⟨?_, ?_⟩
        · obtain ⟨m, hm⟩ : ∃ m, (f.id :: rest).getLast? = some m := ⟨_, List.getLast?_cons⟩
          refine ⟨m, Path.mem_nodes_cons.mpr ?_, ?_⟩
          · rcases List.mem_cons.mp (List.mem_of_getLast? hm) with rfl | hmem
            · exact .inl rfl
            · exact .inr (.inl (mem_toList_of_descends hdrawn hrest hmem))
          · rw [List.getLast?_append, hm]
            rfl
        · rw [hblacks, blacks_of_descends hdrawn hother hrest, Path.weight]
          omega
    · refine .inr ⟨⟨m, Path.mem_nodes_cons.mpr (.inr (.inr hm)), hlast⟩, ?_⟩
      rw [hblacks, Path.weight]
      omega

/-! ## The deficit -/

/-- One slot of `p` is empty, and the ways down from the top that end in it pass one black
node fewer than all other ways. -/
structure ShortBelow (t : Tree) (p : NodeId) : Prop where
  slot : ∃ d, t.child p d = none ∧ t.child p d.opposite ≠ none
  ways : ∀ way way', t.Descends t.top way → t.Descends t.top way' →
    way.getLast? = some p → way'.getLast? ≠ some p → t.blacks way + 1 = t.blacks way'

section Short

variable {f : Frame} {up : Path} {rest : List NodeId}

/-- Where something hangs in the other slot of a node, no way that goes on there ends at the
node. -/
theorem Spells.getLast?_ne_of_other (h : t.Spells (Path.fill (f :: up) leaf))
    (hother : f.other ≠ leaf) (hrest : t.Descends f.other.top rest) :
    (f.id :: rest).getLast? ≠ some f.id := by
  obtain ⟨houtlines, -⟩ := spells_iff.mp h
  obtain ⟨-, -, -, hnodes, -⟩ := spells_fill_iff.mp h
  rw [Path.nodes, List.nodup_cons, List.mem_append, not_or] at hnodes
  have hclose : (f.close leaf).Drawn t := drawn_of_fill (p := up) houtlines.drawn
  obtain ⟨-, -, hdrawn⟩ := drawn_branch.mp hclose
  obtain ⟨m, hm⟩ := Option.ne_none_iff_exists'.mp (mt top_eq_none_iff.mp hother)
  obtain ⟨d, below, rfl, -⟩ := descends_some_iff.mp (hm ▸ hrest)
  rw [List.getLast?_cons_cons]
  intro hlast
  exact hnodes.1.1 (mem_toList_of_descends hdrawn hrest (List.mem_of_getLast? hlast))

/-- The ways of a tree with a short place: they end in the place, or they pass a black
node more. -/
theorem Spells.blacks_of_short (h : t.Spells (Path.fill (f :: up) leaf))
    (hp : Path.Accepts (f :: up) false 1) (hway : t.Descends t.top way) :
    if way.getLast? = some f.id then t.blacks way = Path.weight (f :: up)
    else t.blacks way = 1 + Path.weight (f :: up) := by
  obtain ⟨houtlines, -⟩ := spells_iff.mp h
  obtain ⟨-, -, -, hnodes, -⟩ := spells_fill_iff.mp h
  rw [Path.nodes, List.nodup_cons, List.mem_append, not_or] at hnodes
  obtain ⟨⟨-, hnotUp⟩, -⟩ := hnodes
  obtain ⟨-, hother, hup⟩ := hp
  rw [houtlines.top] at hway
  have hclose : (f.close leaf).Drawn t := drawn_of_fill (p := up) houtlines.drawn
  obtain ⟨⟨hcolor, -⟩, -, hdrawn⟩ := drawn_branch.mp hclose
  rw [Path.weight]
  obtain ⟨down, rest, rfl, hrest, hblacks⟩ | ⟨⟨m, hm, hlast⟩, hblacks⟩ :=
    descends_fill (p := up) houtlines.drawn hup hway
  · rw [top_close] at hrest
    obtain ⟨rest, rfl, hslot⟩ := (descends_branch_iff hclose).mp hrest
    rw [blacks_cons hcolor] at hblacks
    rcases hslot with hrest | hrest
    · obtain rfl := descends_none_iff.mp hrest
      rw [if_pos (by simp), hblacks, blacks, List.countP_nil]
      omega
    · -- The other slot is not empty, so that the way ends at a node that hangs there.
      have hne := h.getLast?_ne_of_other hother.ne_leaf hrest
      rw [List.getLast?_append_of_ne_nil _ (List.cons_ne_nil _ _), if_neg hne, hblacks,
        blacks_of_descends hdrawn hother hrest]
      omega
  · rw [if_neg fun heq => ?_, hblacks]
    · omega
    · obtain rfl := Option.some.inj (hlast.symm.trans heq)
      exact hnotUp hm

theorem Spells.shortBelow (h : t.Spells (Path.fill (f :: up) leaf))
    (hp : Path.Accepts (f :: up) false 1) : t.ShortBelow f.id where
  slot := by
    obtain ⟨haround, -⟩ := spells_fill_iff.mp h
    obtain ⟨⟨-, -, hhole, hchild⟩, -⟩ := haround
    refine ⟨f.side, hhole, fun hnone => ?_⟩
    obtain ⟨-, hother, -⟩ := hp
    exact hother.ne_leaf (top_eq_none_iff.mp (hchild.symm.trans hnone))
  ways := by
    intro way way' hway hway' hlast hlast'
    have hshort := h.blacks_of_short hp hway
    have hlong := h.blacks_of_short hp hway'
    rw [if_pos hlast] at hshort
    rw [if_neg hlast'] at hlong
    rw [hshort, hlong, Nat.add_comm]

end Short

/-- Taking any node out of any red-black tree leaves a tree that hangs together, without that
node and otherwise in the same order, with a black top and no red node below a red one.  If no
deficit is reported, the tree is red-black.  If one is, it is below a node of the tree, and all
other ways down still pass the same number of black nodes. -/
theorem splice_leaves {n : NodeId} (h : t.Spells s) (hs : s.IsRedBlack) (hn : n ∈ s.toList) :
    ∃ spliced s', t.splice n = .ok spliced ∧ spliced.tree.Spells s' ∧
      s'.isRed = false ∧ s'.NoRedRed ∧ s'.toList = s.toList.erase n ∧
      (spliced.deficit = none → s'.IsRedBlack) ∧
      ∀ p, spliced.deficit = some p → p ∈ s'.toList ∧ spliced.tree.ShortBelow p := by
  obtain ⟨p, c, l, r, -, rfl⟩ := exists_focus? hn
  have hlist := toList_removeAt h.nodup
  obtain ⟨spliced, hsplice, ⟨hnone, hdone⟩ | ⟨f, up, hsome, hacc, hleft, hremove⟩⟩ :=
    h.splice_deficit hs
  · have hrb := isRedBlack_removeAt hs
    refine ⟨spliced, _, hsplice, hdone.spells, hrb.topBlack, hrb.noRedRed, hlist, fun _ => hrb,
      fun q hq => ?_⟩
    cases hnone.symm.trans hq
  · obtain ⟨htop, hred⟩ := hacc.noRedRed_fill (s := leaf) trivial
    rw [hremove, toList_repairDeficit, ← Path.toList_fill] at hlist
    refine ⟨spliced, _, hsplice, hleft.spells, htop, hred, hlist, fun hnone => ?_,
      fun q hq => ?_⟩
    · cases hsome.symm.trans hnone
    · obtain rfl : f.id = q := Option.some.inj (hsome.symm.trans hq)
      refine ⟨?_, hleft.spells.shortBelow hacc⟩
      exact Path.mem_toList_fill.mpr (.inr (Path.mem_nodes_cons.mpr (.inl rfl)))

/-- The node that takes the place was the right child, and keeps an empty slot of its own. -/
theorem splice_leaves_of_right_child :
    let s : Shape := .node .black (.node .black .leaf 1 .leaf) 5 (.node .black .leaf 8 .leaf)
    let t := Tree.build {} s
    t.Spells s ∧ s.IsRedBlack ∧ 5 ∈ s.toList ∧
      ∃ spliced s', t.splice 5 = .ok spliced ∧ spliced.tree.Spells s' ∧
        s'.isRed = false ∧ s'.NoRedRed ∧ s'.toList = [1, 8] ∧
        spliced.deficit = some 8 ∧ 8 ∈ s'.toList ∧ spliced.tree.ShortBelow 8 := by
  intro s t
  have h : t.Spells s := spells_build {} (by decide)
  have hs : s.IsRedBlack := by decide
  have hn : 5 ∈ s.toList := by decide
  obtain ⟨spliced, s', hsplice, hspells, htop, hred, hlist, -, hshort⟩ := splice_leaves h hs hn
  have hdeficit : (t.splice 5).map Splice.deficit = .ok (some 8) := by decide +kernel
  rw [hsplice] at hdeficit
  have h8 : spliced.deficit = some 8 := Except.ok.inj hdeficit
  exact ⟨h, hs, hn, spliced, s', hsplice, hspells, htop, hred, hlist, h8, hshort 8 h8⟩

end Tree

end RedBlack
