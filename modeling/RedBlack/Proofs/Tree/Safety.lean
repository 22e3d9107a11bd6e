import RedBlack.Proofs.Tree.Calls
import RedBlack.Proofs.Tree.Strict

/-!
# Every link that a repair needs is there

Nothing in the repairs asks whether a grandparent, a sibling or a nephew is there before it
is used.  That they are there follows from the colours and the black heights, also in the middle
of a repair, when the tree breaks the rules.

* `RedAt` is the invariant of the repair of a red node: the node is red, and the top of the
  place that it is in is black.  So a red parent is not the top.
* `ShortAt` is the invariant of the repair of a deficit: the other side has one black node
  more.  So that side is not empty, and a red node there has black children.
* `SiblingLinks` is what a round relies on.
* `repairs_find_links` is the result, for the repairs in which every link is followed.
-/

namespace RedBlack.Tree

open Shape

/-! ## The repair of a red node -/

/-- The repair of a red node stands here: the node is red, and of the nodes over it the topmost
is black. -/
def RedAt (x : Tree × NodeId) : Prop :=
  ∃ (p : Path) (s : Shape),
    x.1.Spells (p.fill s) ∧ s.top = some x.2 ∧ s.isRed = true ∧ p.TopBlack

/-- Below a red node the place of the node has two frames at least. -/
theorem RedAt.exists_frames {t : Tree} {n p : NodeId} (h : RedAt (t, n))
    (hp : t.parent n = some p) (hred : t.color p ≠ .black) :
    ∃ (f g : Frame) (up : Path) (s : Shape), t.Spells (Path.fill (f :: g :: up) s) ∧
      s.top = some n ∧ f.color ≠ .black ∧ t.parent p = some g.id ∧ up.TopBlack := by
  obtain ⟨path, s, hs, hn, -, hblack⟩ := h
  obtain ⟨haround, hhangs, -⟩ := spells_fill_iff.mp hs
  have hparent := (parent_of_hangs hhangs hn).symm.trans hp
  cases path with
  | nil => cases hparent
  | cons f up =>
    obtain rfl : f.id = p := Option.some.inj hparent
    obtain ⟨⟨hgrand, hcolor, -⟩, -⟩ := haround
    have hf : f.color ≠ .black := hcolor ▸ hred
    cases up with
    | nil => exact absurd (hblack f rfl) hf
    | cons g up => exact ⟨f, g, up, s, hs, hn, hf, hgrand, hblack.tail.tail⟩

/-- A round that goes on leaves the grandparent red, in the place that it is in. -/
theorem RedAt.step {x x' : Tree × NodeId} (h : RedAt x) (hround : redRound x = .ok (.again x')) :
    RedAt x' := by
  obtain ⟨t, n⟩ := x
  cases hp : t.parent n with
  | none => simp [redRound, hp] at hround
  | some p =>
    by_cases hred : t.color p = .black
    · simp [redRound, hp, hred] at hround
    obtain ⟨f, g, up, s, hs, hn, hf, -, hblack⟩ := h.exists_frames hp hred
    by_cases hg : g.other.isRed = true
    · obtain ⟨t', hagain, ht'⟩ := hs.redRound_again hn hf hg
      obtain rfl : (t', g.id) = x' := by simpa [hagain] using hround
      exact ⟨up, _, ht'.spells, top_close .., by simp, hblack⟩
    · rw [hs.redRound_of_red hn hf, if_neg hg] at hround
      split at hround
      · contradiction
      · split at hround <;> simp at hround

theorem Spells.redAt_link {t : Tree} {p : Path} {n : NodeId} (h : t.Spells (p.fill leaf))
    (hp : (p.fill leaf).IsRedBlack) (hn : n ∉ (p.fill leaf).toList) :
    RedAt (t.link n p.slot, n) := by
  obtain ⟨k, hacc, -⟩ := isRedBlack_fill_iff.mp hp
  have hnodes : n ∉ p.nodes := fun hi => hn (Path.mem_toList_fill.mpr (.inr hi))
  exact ⟨p, _, (h.reshapes_link hnodes).spells, rfl, rfl, hacc.topBlack⟩

/-! ## The repair of a deficit -/

/-- The repair of a deficit stands here: below the node, one side has one black node more than
the other side, which holds the given child. -/
def ShortAt (x : Tree × NodeId × Option NodeId) : Prop :=
  ∃ (f : Frame) (up : Path) (s : Shape) (k : Nat), x.1.Spells (Path.fill (f :: up) s) ∧
    Path.Accepts (f :: up) false (k + 1) ∧ s.Balanced k ∧ x.2 = (f.id, s.top)

theorem ShortAt.step {x x' : Tree × NodeId × Option NodeId} (h : ShortAt x)
    (hround : deficitRound x = .ok (.again x')) : ShortAt x' := by
  obtain ⟨t, place⟩ := x
  obtain ⟨f, up, s, k, hs, hacc, hbal, rfl⟩ := h
  obtain ⟨t', ⟨hdone, -⟩ | ⟨g, up', s', -, hagain, ht', -, hacc', hbal'⟩⟩ :=
    hs.deficitRound hacc hbal
  · rw [hdone] at hround
    simp at hround
  · obtain rfl : (t', g.id, s'.top) = x' := by simpa [hagain] using hround
    exact ⟨g, up', s', k + 1, ht'.spells, hacc', hbal', rfl⟩

/-- What the end of a round relies on, where the child of `p` in slot `d` is `s` and black: the
nephew that a rotation lifts or paints is there. -/
structure NephewLinks (t : Tree) (p s : NodeId) (d : Side) : Prop where
  /-- A red near nephew next to a far one that is not red: it is there, and it is lifted to
  be the sibling, with the old sibling as its far child. -/
  near : Strict.isRed t (t.child s d) = .ok false →
    Strict.isRed t (t.child s d.opposite) = .ok true →
      ∃ m, t.child s d.opposite = some m ∧ (t.liftNear p s m d).child p d = some m ∧
        (t.liftNear p s m d).child m d = some s
  /-- A red far nephew is there. -/
  far : Strict.isRed t (t.child s d) = .ok true → ∃ m, t.child s d = some m

/-- What a round at `p` relies on, where the slot on side `d` is not the short one.  That slot
holds the sibling `s`.  If it is red, its near child is there and black, and is the sibling once
`s` is lifted. -/
structure SiblingLinks (t : Tree) (p s : NodeId) (d : Side) : Prop where
  sibling : t.child p d = some s
  black : t.color s = .black → t.NephewLinks p s d
  red : t.color s = .red → ∃ near t', t.child s d.opposite = some near ∧
    t.color near = .black ∧ t.lowerShort p s d = .ok (t', near) ∧ t'.child p d = some near ∧
    t'.NephewLinks p near d

theorem Strict.exists_of_isRed {t : Tree} {n : Option NodeId}
    (h : Strict.isRed t n = .ok true) : ∃ m, n = some m := by
  cases n with
  | none => cases h
  | some m => exact ⟨m, rfl⟩

theorem Spells.nephewLinks {t : Tree} {f : Frame} {up : Path} {x far near : Shape} {m : NodeId}
    (h : t.Spells (Path.fill (f :: up) x))
    (hother : f.other = branch f.side.opposite .black m far near) :
    t.NephewLinks f.id m f.side.opposite := by
  refine ⟨fun _ hred => ?_, Strict.exists_of_isRed⟩
  obtain ⟨k, hk⟩ := Strict.exists_of_isRed hred
  -- The near nephew is a node of the other side, so that it is not the node above.
  have hne : k ≠ f.id := by
    obtain ⟨⟨-, hnear⟩, -⟩ := h.hangs_sibling hother
    obtain ⟨-, -, -, hnodes, -⟩ := spells_fill_iff.mp h
    have hmem : k ∈ f.other.toList := by
      rw [hother, mem_toList_branch]
      exact .inr (.inr (mem_toList_of_top (hnear.symm.trans hk)))
    rw [Path.nodes, List.nodup_cons, List.mem_append] at hnodes
    rintro rfl
    exact hnodes.1 (.inl hmem)
  refine ⟨k, hk, ?_, ?_⟩
  · simp [liftNear, child_setChild]
  · simp [liftNear, swing, child_setChild, hne]

/-- Where one side has a black node more, every link of a round is there. -/
theorem ShortAt.links {x : Tree × NodeId × Option NodeId} (h : ShortAt x) :
    ∃ s, x.1.SiblingLinks x.2.1 s (x.1.sideOf x.2.1 x.2.2).opposite := by
  obtain ⟨t, place⟩ := x
  obtain ⟨f, up, s, k, hs, ⟨-, hother, -⟩, -, rfl⟩ := h
  by_cases hred : f.other.isRed = true
  · obtain ⟨m, far, near, hm⟩ := exists_branch_of_isRed f.side.opposite hred
    rw [hm] at hother
    obtain ⟨hchildren, j, hj, -, hnear⟩ := balanced_branch.mp hother
    obtain rfl : k + 1 = j := hj
    obtain ⟨n, far', near', hn, -⟩ := exists_black_branch f.side.opposite hnear (hchildren rfl).2
    have hntop : near.top = some n := by rw [hn, top_branch]
    obtain ⟨⟨-, hnearChild⟩, -, hnearHangs⟩ := hs.hangs_sibling hm
    rw [hn] at hnearHangs
    obtain ⟨⟨-, hblack, -⟩, -⟩ := hangs_branch.mp hnearHangs
    obtain ⟨hside, hchild, hcolor⟩ := hs.sideOf_short hm
    obtain ⟨t', hlower, ht'⟩ := hs.lowerShort hm hntop
    obtain ⟨-, hchild', -⟩ := ht'.spells.sideOf_short hn
    refine ⟨m, ?_⟩
    dsimp only
    rw [hside]
    refine ⟨hchild, fun hb => ?_, fun _ => ⟨n, t', hnearChild.trans hntop, hblack, hlower,
      hchild', ht'.spells.nephewLinks hn⟩⟩
    rw [hcolor] at hb
    cases hb
  · have hb : f.other.isRed = false := by simpa using hred
    obtain ⟨m, far, near, hm, -⟩ := exists_black_branch f.side.opposite hother hb
    obtain ⟨hside, hchild, hcolor⟩ := hs.sideOf_short hm
    refine ⟨m, ?_⟩
    dsimp only
    rw [hside]
    refine ⟨hchild, fun _ => hs.nephewLinks hm, fun hred => ?_⟩
    rw [hcolor] at hred
    cases hred

/-- Taking a node out of a red-black tree leaves a deficit at one node at most. -/
theorem Spells.shortAt_splice {t : Tree} {s : Shape} {n : NodeId} (h : t.Spells s)
    (hs : s.IsRedBlack) (hn : n ∈ s.toList) :
    ∃ spliced, t.splice n = .ok spliced ∧
      ∀ p, spliced.deficit = some p → ShortAt (spliced.tree, p, none) := by
  obtain ⟨path, c, l, r, -, rfl⟩ := exists_focus? hn
  obtain ⟨spliced, hsplice, ⟨hnone, -⟩ | ⟨f, up, hsome, hacc, hspells, -⟩⟩ := h.splice_deficit hs
  · refine ⟨spliced, hsplice, fun p hp => ?_⟩
    cases hnone.symm.trans hp
  · refine ⟨spliced, hsplice, fun p hp => ?_⟩
    obtain rfl : f.id = p := Option.some.inj (hsome.symm.trans hp)
    exact ⟨f, up, leaf, 0, hspells.spells, hacc, balanced_leaf.mpr rfl, rfl⟩

/-! ## Both repairs -/

/-- No repair of a red-black tree follows a link that is absent, where `Strict` follows every
link whose record is read or written.

* When a node was linked into a vacant slot, in every round of the repair a red parent has
  a parent of its own.  The repair succeeds with every link followed.
* When a node is removed, the splice succeeds.  In every round of the repair that it may call for
  there is a node `p` whose sibling side is not empty, with nephews as the cases need
  them.  The removal succeeds with every link followed. -/
theorem repairs_find_links {t : Tree} {s : Shape} (h : t.Spells s) (hs : s.IsRedBlack) :
    (∀ n slot, n ∉ s.toList → t.Vacant s.toList slot →
      (∀ x ∈ trail Strict.redRound (t.link n slot).bound (Strict.withParent (t.link n slot, n)),
        (∃ m, x.2.1 = some m) ∧
          ∀ p, x.2.2 = some p → x.1.color p = .red → ∃ g, x.1.parent p = some g) ∧
      ∃ t', Strict.repairRed (t.link n slot) (some n) = .ok t' ∧
        (t.link n slot).repairRed n = .ok t') ∧
    ∀ n ∈ s.toList,
      (∃ spliced, Strict.splice t (some n) = .ok spliced ∧ t.splice n = .ok spliced ∧
        ∀ q, spliced.deficit = some q →
          ∀ x ∈ trail Strict.deficitRound spliced.tree.bound (spliced.tree, some q, none),
            ∃ p m, x.2.1 = some p ∧ x.1.SiblingLinks p m (x.1.sideOf p x.2.2).opposite) ∧
      ∃ t', Strict.unlink t (some n) = .ok t' ∧ t.unlink n = .ok t' := by
  refine ⟨fun n slot hn hslot => ?_, fun n hn => ⟨?_, ?_⟩⟩
  · obtain ⟨p, rfl, rfl⟩ := h.exists_place hslot
    have hred : RedAt (t.link n p.slot, n) := h.redAt_link hs hn
    generalize t.link n p.slot = u at hred ⊢
    constructor
    · intro x hx
      rw [trail_map Strict.redRound_withParent] at hx
      obtain ⟨y, hy, rfl⟩ := List.mem_map.mp hx
      have hat := forall_mem_trail (fun _ _ => RedAt.step) hred u.bound y hy
      refine ⟨⟨y.2, rfl⟩, fun p hp hcolor => ?_⟩
      have hnb : y.1.color p ≠ .black := by
        intro hb
        cases hb.symm.trans hcolor
      obtain ⟨f, g, up, s, -, -, -, hgrand, -⟩ := hat.exists_frames hp hnb
      exact ⟨g.id, hgrand⟩
    · obtain ⟨path, s, hspells, htop, hr, hblack⟩ := hred
      obtain ⟨t', hrepair, -⟩ := hspells.repairRed htop hr hblack
      exact ⟨t', (Strict.repairRed_some u n).trans hrepair, hrepair⟩
  · obtain ⟨spliced, hsplice, hshort⟩ := h.shortAt_splice hs hn
    refine ⟨spliced, (Strict.splice_some t n).trans hsplice, hsplice, fun q hq x hx => ?_⟩
    have htrail := trail_map Strict.deficitRound_atLink spliced.tree.bound (spliced.tree, q, none)
    obtain ⟨y, hy, rfl⟩ := List.mem_map.mp (htrail ▸ hx)
    have hat := forall_mem_trail (fun _ _ => ShortAt.step) (hshort q hq) spliced.tree.bound y hy
    obtain ⟨m, hlinks⟩ := hat.links
    exact ⟨y.2.1, m, rfl, hlinks⟩
  · obtain ⟨p, c, l, r, -, rfl⟩ := exists_focus? hn
    obtain ⟨t', hunlink, -⟩ := h.unlink hs
    exact ⟨t', (Strict.unlink_some t n).trans hunlink, hunlink⟩

/-- Node 4 is linked below a red node.  Node 1 goes and leaves a deficit next to a red
sibling. -/
theorem repairs_find_links_of_red_sibling :
    let s : Shape := .node .black (.node .black .leaf 1 .leaf) 5
      (.node .red (.node .black .leaf 7 .leaf) 8
        (.node .black .leaf 9 (.node .red .leaf 2 .leaf)))
    let t := Tree.build {} s
    let u := t.link 4 (.under 2 .right)
    t.Spells s ∧ s.IsRedBlack ∧ 4 ∉ s.toList ∧ t.Vacant s.toList (.under 2 .right) ∧
      (∃ t', Strict.repairRed u (some 4) = .ok t' ∧ u.repairRed 4 = .ok t') ∧
      1 ∈ s.toList ∧ ∃ t', Strict.unlink t (some 1) = .ok t' ∧ t.unlink 1 = .ok t' := by
  intro s t u
  have h : t.Spells s := spells_build {} (by decide)
  have hs : s.IsRedBlack := by decide
  have hn : 4 ∉ s.toList := by decide
  have hslot : t.Vacant s.toList (.under 2 .right) := by decide +kernel
  have hm : 1 ∈ s.toList := by decide
  obtain ⟨hlink, hremove⟩ := repairs_find_links h hs
  exact ⟨h, hs, hn, hslot, (hlink 4 _ hn hslot).2, hm, (hremove 1 hm).2⟩

end RedBlack.Tree
