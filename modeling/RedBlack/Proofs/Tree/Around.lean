import RedBlack.Proofs.Shape.Nodes
import RedBlack.Proofs.Tree.Fields

/-!
# Records around a place

A tree that spells `p.fill s` falls into two parts that share no node: the shape `s`,
which hangs below the place, and the nodes around the place.  `Tree.Around` is the
second part.  An operation that works at a place changes the first part freely, and of
the second one only the slot of the place.

* `spells_fill_iff` takes a tree apart and puts it together.
* `hangs_…` and `around_…` say that a write to a node outside a part keeps the part.
* `Around.redirect_eq` and `Around.fill` are the two facts about the slot: looking for
  it finds it, and writing it is all that the place needs.
* `Reshapes` is the result of an operation: a tree that spells a shape and differs
  from the old one at the nodes of that shape only.
-/

namespace RedBlack

/-- The slot that is open at a place. -/
def Path.slot : Path → Slot
  | [] => .top
  | f :: _ => .under f.id f.side

@[simp] theorem Path.parent_slot (p : Path) : p.slot.parent = p.parent := by
  cases p <;> rfl

theorem Path.slot_ne_of_notMem {p : Path} {n : NodeId} (h : n ∉ p.nodes) (d : Side) :
    p.slot ≠ .under n d := by
  cases p with
  | nil => simp [slot]
  | cons f up =>
    rw [nodes, List.mem_cons, not_or] at h
    intro hslot
    cases hslot
    exact h.1 rfl

namespace Tree

open Shape

/-- The records around a place, whose slot holds `hole`. -/
def Around (t : Tree) : Path → (hole : Option NodeId) → Prop
  | [], hole => t.top = hole
  | f :: up, hole =>
    (t.parent f.id = Path.parent up ∧ t.color f.id = f.color ∧ t.child f.id f.side = hole ∧
        t.child f.id f.side.opposite = f.other.top) ∧
      f.other.Hangs t.store (some f.id) ∧ t.Around up (some f.id)

/-! ## Taking a tree apart -/

theorem record_eq_iff {t : Tree} {n : NodeId} {r : Record} :
    t.store.get n = r ↔
      t.parent n = r.parent ∧ t.color n = r.color ∧ t.child n .left = r.left ∧
        t.child n .right = r.right := by
  show t.record n = r ↔ _
  simp only [parent, color, child, Record.child]
  cases r
  cases t.record n
  simp

/-- What hangs at a node, said once for both sides. -/
theorem hangs_branch {t : Tree} {q : Option NodeId} {d : Side} {c : Color} {n : NodeId}
    {x y : Shape} :
    (branch d c n x y).Hangs t.store q ↔
      (t.parent n = q ∧ t.color n = c ∧ t.child n d = x.top ∧ t.child n d.opposite = y.top) ∧
        x.Hangs t.store (some n) ∧ y.Hangs t.store (some n) := by
  cases d with
  | left => rw [branch, Hangs, record_eq_iff]; rfl
  | right =>
    rw [branch, Hangs, record_eq_iff]
    simp only [Side.opposite]
    tauto

theorem hangs_fill_iff {t : Tree} {p : Path} {s : Shape} :
    t.top = (p.fill s).top ∧ (p.fill s).Hangs t.store none ↔
      t.Around p s.top ∧ s.Hangs t.store p.parent := by
  induction p generalizing s with
  | nil => rfl
  | cons f up ih =>
    rw [Path.fill, ih, Frame.close, hangs_branch, top_branch, Around, Path.parent]
    tauto

/-- A tree spells a shape in a place when the records around the place and below it
are right and no node is named twice. -/
theorem spells_fill_iff {t : Tree} {p : Path} {s : Shape} :
    t.Spells (p.fill s) ↔
      t.Around p s.top ∧ s.Hangs t.store p.parent ∧
        s.toList.Nodup ∧ p.nodes.Nodup ∧ s.toList.Disjoint p.nodes := by
  constructor
  · rintro ⟨htop, hhangs, hnodup⟩
    obtain ⟨haround, hs⟩ := hangs_fill_iff.mp ⟨htop, hhangs⟩
    exact ⟨haround, hs, Path.nodup_toList_fill.mp hnodup⟩
  · rintro ⟨haround, hs, hnodup⟩
    obtain ⟨htop, hhangs⟩ := hangs_fill_iff.mpr ⟨haround, hs⟩
    exact ⟨htop, hhangs, Path.nodup_toList_fill.mpr hnodup⟩

/-! ## Writes outside a part -/

theorem hangs_congr {t t' : Tree} {s : Shape} {q : Option NodeId}
    (h : ∀ i ∈ s.toList, t'.record i = t.record i) : s.Hangs t'.store q ↔ s.Hangs t.store q :=
  ⟨fun hs => hs.congr fun i hi => (h i hi).symm, fun hs => hs.congr h⟩

theorem Around.congr {t t' : Tree} {p : Path} {hole : Option NodeId} (ht : t.Around p hole)
    (htop : t'.top = t.top) (h : ∀ i ∈ p.nodes, t'.record i = t.record i) : t'.Around p hole := by
  induction p generalizing hole with
  | nil => exact htop.trans ht
  | cons f up ih =>
    rw [Path.nodes, List.forall_mem_cons] at h
    obtain ⟨hf, hrest⟩ := h
    obtain ⟨hfields, hother, hup⟩ := ht
    refine ⟨?_, ?_, ih hup fun i hi => hrest i (List.mem_append_right _ hi)⟩
    · simpa only [parent, color, child, hf] using hfields
    · exact (hangs_congr fun i hi => hrest i (List.mem_append_left _ hi)).mpr hother

theorem around_congr {t t' : Tree} {p : Path} {hole : Option NodeId} (htop : t'.top = t.top)
    (h : ∀ i ∈ p.nodes, t'.record i = t.record i) : t'.Around p hole ↔ t.Around p hole :=
  ⟨fun ht => ht.congr htop.symm fun i hi => (h i hi).symm, fun ht => ht.congr htop h⟩

section Outside

variable {t : Tree} {s y : Shape} {q p c hole : Option NodeId} {n : NodeId} {d : Side}
  {color : Color} {up : Path}

theorem hangs_setRecord {r : Record} (h : n ∉ s.toList) :
    s.Hangs (t.setRecord n r).store q ↔ s.Hangs t.store q :=
  hangs_congr fun _ hi => record_setRecord_of_ne (ne_of_mem_of_not_mem hi h)

theorem hangs_setParent (h : n ∉ s.toList) :
    s.Hangs (t.setParent n p).store q ↔ s.Hangs t.store q :=
  hangs_congr fun _ hi => record_setParent_of_ne (ne_of_mem_of_not_mem hi h)

theorem hangs_setColor (h : n ∉ s.toList) :
    s.Hangs (t.setColor n color).store q ↔ s.Hangs t.store q :=
  hangs_congr fun _ hi => record_setColor_of_ne (ne_of_mem_of_not_mem hi h)

theorem hangs_setChild (h : n ∉ s.toList) :
    s.Hangs (t.setChild n d c).store q ↔ s.Hangs t.store q :=
  hangs_congr fun _ hi => record_setChild_of_ne (ne_of_mem_of_not_mem hi h)

theorem hangs_adopt (h : y.toList.Disjoint s.toList) :
    s.Hangs (t.adopt y.top n).store q ↔ s.Hangs t.store q :=
  hangs_congr fun _ hi => record_adopt_of_ne (top_ne_of_notMem fun hy => h hy hi)

theorem record_fill_slot (h : n ∉ up.nodes) : (t.fill up.slot c).record n = t.record n := by
  refine record_fill_of_ne ?_
  rw [Path.parent_slot]
  exact Path.parent_ne_of_notMem h

theorem hangs_fill (h : s.toList.Disjoint up.nodes) :
    s.Hangs (t.fill up.slot c).store q ↔ s.Hangs t.store q :=
  hangs_congr fun _ hi => record_fill_slot (h hi)

theorem child_fill_slot (h : n ∉ up.nodes) :
    (t.fill up.slot c).child n d = t.child n d := by
  rw [child_fill, if_neg (Path.slot_ne_of_notMem h d)]

theorem around_setRecord {r : Record} (h : n ∉ up.nodes) :
    (t.setRecord n r).Around up hole ↔ t.Around up hole :=
  around_congr rfl fun _ hi => record_setRecord_of_ne (ne_of_mem_of_not_mem hi h)

theorem around_setParent (h : n ∉ up.nodes) :
    (t.setParent n p).Around up hole ↔ t.Around up hole :=
  around_congr rfl fun _ hi => record_setParent_of_ne (ne_of_mem_of_not_mem hi h)

theorem around_setColor (h : n ∉ up.nodes) :
    (t.setColor n color).Around up hole ↔ t.Around up hole :=
  around_congr rfl fun _ hi => record_setColor_of_ne (ne_of_mem_of_not_mem hi h)

theorem around_setChild (h : n ∉ up.nodes) :
    (t.setChild n d c).Around up hole ↔ t.Around up hole :=
  around_congr rfl fun _ hi => record_setChild_of_ne (ne_of_mem_of_not_mem hi h)

theorem around_adopt (h : y.toList.Disjoint up.nodes) :
    (t.adopt y.top n).Around up hole ↔ t.Around up hole :=
  around_congr (top_adopt ..) fun _ hi => record_adopt_of_ne (top_ne_of_notMem fun hy => h hy hi)

end Outside

/-! ## The slot of a place -/

/-- Looking for the slot of a place finds it. -/
theorem Around.redirect_eq {t : Tree} {p : Path} {n : NodeId} (ht : t.Around p (some n))
    (hn : n ∉ p.nodes) (c : Option NodeId) : t.redirect n c p.parent = t.fill p.slot c := by
  cases p with
  | nil => rfl
  | cons f up =>
    obtain ⟨⟨-, -, hhole, hother⟩, -⟩ := ht
    rw [Path.nodes, List.mem_cons, List.mem_append, not_or, not_or] at hn
    have hne : f.other.top ≠ some n := top_ne_of_notMem hn.2.1
    simp only [redirect, Path.parent, Path.slot, fill]
    cases hd : f.side with
    | left =>
      rw [hd] at hhole
      rw [if_pos hhole]
    | right =>
      rw [hd] at hother
      have hleft : t.child f.id .left = f.other.top := hother
      rw [if_neg fun h => hne (hleft.symm.trans h)]

/-- Writing the slot of a place changes what it holds, and nothing else. -/
theorem Around.fill {t : Tree} {p : Path} {hole : Option NodeId} (ht : t.Around p hole)
    (hp : p.nodes.Nodup) (c : Option NodeId) : (t.fill p.slot c).Around p c := by
  cases p with
  | nil => rfl
  | cons f up =>
    obtain ⟨⟨hparent, hcolor, -, hother⟩, hhangs, hup⟩ := ht
    rw [Path.nodes, List.nodup_cons, List.mem_append, not_or] at hp
    obtain ⟨⟨ho, hu⟩, -⟩ := hp
    simp only [Path.slot, Tree.fill]
    refine ⟨⟨by simpa using hparent, by simpa using hcolor, ?_, ?_⟩, ?_, ?_⟩
    · simp [child_setChild]
    · rw [child_setChild, if_neg fun h => f.side.opposite_ne h.2]
      exact hother
    · exact (hangs_setChild ho).mpr hhangs
    · exact (around_setChild hu).mpr hup

/-! ## The top of what hangs somewhere -/

theorem parent_of_hangs {t : Tree} {s : Shape} {q : Option NodeId} {n : NodeId}
    (hs : s.Hangs t.store q) (hn : s.top = some n) : t.parent n = q := by
  cases s with
  | leaf => cases hn
  | node c l m r =>
    cases hn
    exact (record_eq_iff.mp hs.1).1

theorem color_of_hangs {t : Tree} {s : Shape} {q : Option NodeId} {n : NodeId}
    (hs : s.Hangs t.store q) (hn : s.top = some n) : t.color n = .red ↔ s.isRed = true := by
  cases s with
  | leaf => cases hn
  | node c l m r =>
    cases hn
    rw [(record_eq_iff.mp hs.1).2.1, isRed, decide_eq_true_iff]

/-- A shape that is adopted hangs below its new parent. -/
theorem hangs_adopt_self {t : Tree} {s : Shape} {q : Option NodeId} (hs : s.Hangs t.store q)
    (hnodup : s.toList.Nodup) (p : NodeId) : s.Hangs (t.adopt s.top p).store (some p) := by
  cases s with
  | leaf => trivial
  | node c l n r =>
    obtain ⟨hn, hl, hr⟩ := hs
    obtain ⟨hnl, hnr, -⟩ := (nodup_toList_branch (d := .left)).mp hnodup
    refine ⟨?_, (hangs_setParent hnl).mpr hl, (hangs_setParent hnr).mpr hr⟩
    rw [record_eq_iff] at hn ⊢
    obtain ⟨-, hcolor, hleft, hright⟩ := hn
    simp [adopt, Shape.top, parent_setParent, hcolor, hleft, hright]

/-- A shape whose top is painted is painted. -/
theorem hangs_setColor_self {t : Tree} {s : Shape} {q : Option NodeId} {n : NodeId}
    (hs : s.Hangs t.store q) (hnodup : s.toList.Nodup) (hn : s.top = some n) (c : Color) :
    (s.paint c).Hangs (t.setColor n c).store q := by
  cases s with
  | leaf => trivial
  | node c' l m r =>
    cases hn
    obtain ⟨hm, hl, hr⟩ := hs
    obtain ⟨hml, hmr, -⟩ := (nodup_toList_branch (d := .left)).mp hnodup
    refine ⟨?_, (hangs_setColor hml).mpr hl, (hangs_setColor hmr).mpr hr⟩
    rw [record_eq_iff] at hm ⊢
    obtain ⟨hparent, -, hleft, hright⟩ := hm
    simp [color_setColor, hparent, hleft, hright]

/-! ## How many nodes there are -/

/-- A node with a parent has a record. -/
theorem lt_size_of_parent {t : Tree} {n : NodeId} (h : t.parent n ≠ none) : n < t.store.size := by
  rw [← Nat.not_le]
  intro hle
  refine h ?_
  rw [parent, record, t.store.get_of_size_le hle]
  rfl

theorem lt_size_of_color {t : Tree} {n : NodeId} (h : t.color n = .black) :
    n < t.store.size := by
  rw [← Nat.not_le]
  intro hle
  rw [color, record, t.store.get_of_size_le hle] at h
  cases h

theorem lt_size_of_hangs {t : Tree} {s : Shape} {q i : NodeId} (hs : s.Hangs t.store (some q))
    (hi : i ∈ s.toList) : i < t.store.size := by
  induction s generalizing q with
  | leaf => cases hi
  | node c l n r ihl ihr =>
    obtain ⟨hn, hl, hr⟩ := hs
    rw [Shape.toList, List.mem_append, List.mem_cons] at hi
    rcases hi with hi | rfl | hi
    · exact ihl hl hi
    · refine lt_size_of_parent ?_
      rw [(record_eq_iff.mp hn).1]
      simp
    · exact ihr hr hi

theorem length_le_of_nodup {l : List NodeId} {k : Nat} (hl : l.Nodup) (h : ∀ i ∈ l, i < k) :
    l.length ≤ k := by
  simpa using hl.length_le_of_subset fun i hi => List.mem_range.mpr (h i hi)

/-- Only the top can be without a record. -/
theorem Spells.length_le_bound {t : Tree} {s : Shape} (h : t.Spells s) :
    s.toList.length ≤ t.bound := by
  cases s with
  | leaf => simp [Shape.toList]
  | node c l n r =>
    obtain ⟨-, hl, hr⟩ := h.hangs
    have hnodup := h.nodup
    rw [Shape.toList, List.nodup_middle, List.nodup_cons] at hnodup
    have hrest : (l.toList ++ r.toList).length ≤ t.store.size := by
      refine length_le_of_nodup hnodup.2 fun i hi => ?_
      rcases List.mem_append.mp hi with hi | hi
      · exact lt_size_of_hangs hl hi
      · exact lt_size_of_hangs hr hi
    simp only [Shape.toList, List.length_append, List.length_cons, bound] at hrest ⊢
    omega

/-- A place is no deeper than a walk may go. -/
theorem Spells.length_path_le {t : Tree} {p : Path} {s : Shape} (h : t.Spells (p.fill s)) :
    p.length + s.toList.length ≤ t.bound :=
  Nat.le_trans (p.length_add_le s) h.length_le_bound

/-! ## What an operation comes to -/

/-- The tree `t'` spells `s`, and differs from `t` at the nodes of `s` only. -/
structure Reshapes (t t' : Tree) (s : Shape) : Prop where
  spells : t'.Spells s
  frame : ∀ i, i ∉ s.toList → t'.record i = t.record i

theorem Spells.reshapes_self {t : Tree} {s : Shape} (h : t.Spells s) : t.Reshapes t s :=
  ⟨h, fun _ _ => rfl⟩

/-- Operations follow each other, as long as the second keeps the nodes of the first. -/
theorem Reshapes.trans {t t' t'' : Tree} {s s' : Shape} (h : t.Reshapes t' s)
    (h' : t'.Reshapes t'' s') (hsub : ∀ i ∈ s.toList, i ∈ s'.toList) : t.Reshapes t'' s' :=
  ⟨h'.spells, fun i hi => (h'.frame i hi).trans (h.frame i fun his => hi (hsub i his))⟩

/-- Two trees with the same top and the same records. -/
structure SameRecords (t t' : Tree) : Prop where
  top : t'.top = t.top
  record : ∀ i, t'.record i = t.record i

theorem SameRecords.of_fields {t t' : Tree} (htop : t'.top = t.top)
    (hparent : ∀ i, t'.parent i = t.parent i) (hcolor : ∀ i, t'.color i = t.color i)
    (hchild : ∀ i d, t'.child i d = t.child i d) : t.SameRecords t' :=
  ⟨htop, fun i => record_eq_of_fields (hparent i) (hcolor i) (hchild i)⟩

/-- Only the top and the records count. -/
theorem Reshapes.congr {t t' t'' : Tree} {s : Shape} (h : t.Reshapes t' s)
    (hsame : t'.SameRecords t'') : t.Reshapes t'' s where
  spells :=
    ⟨hsame.top.trans h.spells.top, h.spells.hangs.congr fun i _ => hsame.record i,
      h.spells.nodup⟩
  frame i hi := (hsame.record i).trans (h.frame i hi)

/-- Painting the top of what hangs in a place. -/
theorem Spells.reshapes_setColor {t : Tree} {p : Path} {s : Shape} {n : NodeId}
    (h : t.Spells (p.fill s)) (hn : s.top = some n) (c : Color) :
    t.Reshapes (t.setColor n c) (p.fill (s.paint c)) := by
  obtain ⟨haround, hhangs, hnodup, hp, hdisj⟩ := spells_fill_iff.mp h
  have hmem : n ∈ s.toList := mem_toList_of_top hn
  constructor
  · refine spells_fill_iff.mpr ⟨?_, hangs_setColor_self hhangs hnodup hn c, ?_⟩
    · rw [top_paint]
      exact (around_setColor (hdisj hmem)).mpr haround
    · rw [toList_paint]
      exact ⟨hnodup, hp, hdisj⟩
  · intro i hi
    rw [Path.mem_toList_fill, toList_paint, not_or] at hi
    exact record_setColor_of_ne (ne_of_mem_of_not_mem hmem hi.1).symm

end Tree

end RedBlack
