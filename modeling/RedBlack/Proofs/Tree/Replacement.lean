import RedBlack.Proofs.Tree.Around

/-!
# Putting nodes and shapes in the place of a node

* `Spells.reshapes_swapIn` is about a node that takes over place, colour and children
  of another one.  `Relinks` is the whole difference that this makes, field by field.
* `Spells.reshapes_supplant` is about a shape that takes the place of a node that it
  hung below.
-/

namespace RedBlack.Tree

open Shape

/-! ## A node for a node -/

/-- Before the record of the new node, only the parent links of the children and the
slot of the place are written. -/
theorem Spells.swapIn_eq {t : Tree} {p : Path} {c : Color} {l r : Shape} {n : NodeId}
    (h : t.Spells (p.fill (node c l n r))) (m : NodeId) :
    t.swapIn n m =
      (((t.fill p.slot (some m)).adopt l.top m).adopt r.top m).setRecord m
        { parent := p.parent, color := c, left := l.top, right := r.top } := by
  obtain ⟨haround, hhangs, -, -, hdisj⟩ := spells_fill_iff.mp h
  obtain ⟨⟨hparent, hcolor, hleft, hright⟩, -⟩ := (hangs_branch (d := .left)).mp hhangs
  have hright : t.child n .right = r.top := hright
  have hn : n ∉ p.nodes := ((disjoint_toList_branch (d := .left)).mp hdisj).1
  have hslot : ∀ d, p.slot ≠ .under n d := fun d => Path.slot_ne_of_notMem hn d
  have hrecord : ∀ u : Tree, { u.record n with parent := p.parent } =
      ({ parent := p.parent, color := u.color n, left := u.child n .left,
         right := u.child n .right } : Record) := fun u => rfl
  simp only [swapIn, handChildren, hparent, haround.redirect_eq hn, hrecord, child_adopt,
    color_adopt, color_fill, child_fill, if_neg (hslot _), hcolor, hleft, hright]

/-- Away from the new node and from the neighbours of the old one nothing is written. -/
theorem Spells.record_swapIn_of_ne {t : Tree} {p : Path} {c : Color} {l r : Shape}
    {n m i : NodeId} (h : t.Spells (p.fill (node c l n r))) (him : i ≠ m)
    (hp : p.parent ≠ some i) (hl : l.top ≠ some i) (hr : r.top ≠ some i) :
    (t.swapIn n m).record i = t.record i := by
  rw [← Path.parent_slot] at hp
  rw [h.swapIn_eq, record_setRecord_of_ne him, record_adopt_of_ne hr, record_adopt_of_ne hl,
    record_fill_of_ne hp]

/-- The new node takes the place of the old one, and the old one keeps its record. -/
theorem Spells.reshapes_swapIn {t : Tree} {p : Path} {c : Color} {l r : Shape} {n m : NodeId}
    (h : t.Spells (p.fill (node c l n r))) (hm : m ∉ (p.fill (node c l n r)).toList) :
    t.Reshapes (t.swapIn n m) (p.fill (node c l m r)) := by
  obtain ⟨haround, hhangs, hnodup, hp, hdisj⟩ := spells_fill_iff.mp h
  obtain ⟨-, hl, hr⟩ := (hangs_branch (d := .left)).mp hhangs
  simp only [Path.mem_toList_fill, Shape.toList, List.mem_append, List.mem_cons, not_or] at hm
  obtain ⟨⟨hml, hmn, hmr⟩, hmp⟩ := hm
  obtain ⟨hnl, hnr, hlnd, hrnd, hlr⟩ := (nodup_toList_branch (d := .left)).mp hnodup
  obtain ⟨hnp, hlp, hrp⟩ := (disjoint_toList_branch (d := .left)).mp hdisj
  -- Each part hangs where it did, below the new node, and its record is not among them.
  rw [← hangs_fill hlp] at hl
  rw [← hangs_fill hrp, ← hangs_adopt hlr] at hr
  constructor
  · rw [h.swapIn_eq]
    refine spells_fill_iff.mpr ⟨?_, ⟨?_, ?_, ?_⟩, ?_, hp, ?_⟩
    · rw [around_setRecord hmp, around_adopt hrp, around_adopt hlp]
      exact haround.fill hp (some m)
    · exact (record_setRecord ..).trans (if_pos rfl)
    · rw [hangs_setRecord hml, hangs_adopt (List.disjoint_symm hlr)]
      exact hangs_adopt_self hl hlnd m
    · rw [hangs_setRecord hmr]
      exact hangs_adopt_self hr hrnd m
    · exact (nodup_toList_branch (d := .left)).mpr ⟨hml, hmr, hlnd, hrnd, hlr⟩
    · exact (disjoint_toList_branch (d := .left)).mpr ⟨hmp, hlp, hrp⟩
  · intro i hi
    simp only [Path.mem_toList_fill, Shape.toList, List.mem_append, List.mem_cons, not_or] at hi
    obtain ⟨⟨hil, him, hir⟩, hip⟩ := hi
    exact h.record_swapIn_of_ne him (Path.parent_ne_of_notMem hip) (top_ne_of_notMem hil)
      (top_ne_of_notMem hir)

/-! ## The fields that a replacement writes -/

section Relinks

variable {t : Tree} {p : Path} {c : Color} {l r : Shape} {old new : NodeId}

/-- The tree `t'` is `t` with `new` in the place of `old`, where these fields are written and no
others: all of `new`, the slot of the parent of `old` or else the top, and the parent links of
the children of `old`. -/
structure Relinks (t t' : Tree) (old new : NodeId) : Prop where
  copy : t'.record new = t.record old
  top : t'.top = if t.parent old = none then some new else t.top
  slot : ∀ p, t.parent old = some p →
    ∃ d, t.child p d = some old ∧ t'.record p = (t.record p).setChild d (some new)
  children : ∀ d c, t.child old d = some c →
    t'.record c = { t.record c with parent := some new }
  kept : t'.record old = t.record old
  others : ∀ i, i ≠ new → t.parent old ≠ some i → (∀ d, t.child old d ≠ some i) →
    t'.record i = t.record i

/-- Of two links that are adopted one leads to `i`. -/
theorem record_adopt_adopt {a b : Option NodeId} {i : NodeId} (hi : a = some i ∨ b = some i) :
    ((t.adopt a new).adopt b new).record i = { t.record i with parent := some new } := by
  by_cases hb : b = some i
  · subst hb
    rw [adopt, record_setParent, if_pos rfl]
    by_cases ha : a = some i
    · subst ha
      rw [adopt, record_setParent, if_pos rfl]
    · rw [record_adopt_of_ne ha]
  · rw [record_adopt_of_ne hb, hi.resolve_right hb, adopt, record_setParent, if_pos rfl]

/-- Swapping a node in writes the fields of a replacement, and no others. -/
theorem Spells.relinks_swapIn (h : t.Spells (p.fill (node c l old r)))
    (hnew : new ∉ (p.fill (node c l old r)).toList) : t.Relinks (t.swapIn old new) old new := by
  obtain ⟨haround, hhangs, hnodup, -, hdisj⟩ := spells_fill_iff.mp h
  obtain ⟨⟨hparent, -, hleft, hother⟩, -⟩ := (hangs_branch (d := .left)).mp hhangs
  have hright : t.child old .right = r.top := hother
  obtain ⟨holdl, holdr, -⟩ := (nodup_toList_branch (d := .left)).mp hnodup
  obtain ⟨holdp, hlp, hrp⟩ := (disjoint_toList_branch (d := .left)).mp hdisj
  have hne : ∀ i ∈ (p.fill (node c l old r)).toList, i ≠ new :=
    fun i hi => ne_of_mem_of_not_mem hi hnew
  constructor
  case copy =>
    rw [h.swapIn_eq, record_setRecord, if_pos rfl]
    exact hhangs.1.symm
  case top =>
    rw [h.swapIn_eq, top_setRecord, top_adopt, top_adopt, top_fill, hparent]
    cases p <;> simp [Path.slot, Path.parent]
  case slot =>
    intro q hq
    cases p with
    | nil => cases hparent.symm.trans hq
    | cons f up =>
      obtain rfl : f.id = q := Option.some.inj (hparent.symm.trans hq)
      obtain ⟨⟨-, -, hslot, -⟩, -⟩ := haround
      have hf : f.id ∈ Path.nodes (f :: up) := List.mem_cons_self
      refine ⟨f.side, hslot, ?_⟩
      rw [h.swapIn_eq, record_setRecord_of_ne (hne _ (by simp)),
        record_adopt_of_ne (top_ne_of_notMem fun hi => hrp hi hf),
        record_adopt_of_ne (top_ne_of_notMem fun hi => hlp hi hf), Path.slot, Tree.fill,
        record_setChild, if_pos rfl]
  case children =>
    intro d i hi
    -- A child of the old node is a node below the place.
    have htop : l.top = some i ∨ r.top = some i := by
      cases d with
      | left => exact .inl (hleft.symm.trans hi)
      | right => exact .inr (hright.symm.trans hi)
    have hmem : i ∈ (node c l old r).toList := by
      rw [Shape.toList, List.mem_append, List.mem_cons]
      exact htop.imp mem_toList_of_top fun hr => .inr (mem_toList_of_top hr)
    rw [h.swapIn_eq, record_setRecord_of_ne (hne i (Path.mem_toList_fill.mpr (.inl hmem))),
      record_adopt_adopt htop, record_fill_slot (hdisj hmem)]
  case kept =>
    have hold : old ∈ (p.fill (node c l old r)).toList := by
      simp [Path.mem_toList_fill, Shape.toList]
    exact h.record_swapIn_of_ne (hne old hold) (Path.parent_ne_of_notMem holdp)
      (top_ne_of_notMem holdl) (top_ne_of_notMem holdr)
  case others =>
    intro i hin hip hchild
    rw [hparent] at hip
    exact h.record_swapIn_of_ne hin hip (hleft ▸ hchild .left) (hright ▸ hchild .right)

end Relinks

/-! ## A shape for a node -/

/-- Gives a node, where there is one, a parent and a colour. -/
def settle (t : Tree) (n q : Option NodeId) (c : Color) : Tree :=
  match n with
  | none => t
  | some n => (t.setParent n q).setColor n c

/-- Writes `n` into a slot and settles it there. -/
def supplant (t : Tree) (slot : Slot) (n : Option NodeId) (c : Color) : Tree :=
  (t.fill slot n).settle n slot.parent c

section Settle

variable (t : Tree) (n q : Option NodeId) (c : Color) (i : NodeId)

@[simp] theorem top_settle : (t.settle n q c).top = t.top := by
  cases n <;> simp [settle]

theorem parent_settle :
    (t.settle n q c).parent i = if n = some i then q else t.parent i := by
  cases n <;> simp [settle, parent_setParent, eq_comm]

theorem color_settle :
    (t.settle n q c).color i = if n = some i then c else t.color i := by
  cases n <;> simp [settle, color_setColor, eq_comm]

@[simp] theorem child_settle (d : Side) : (t.settle n q c).child i d = t.child i d := by
  cases n <;> simp [settle]

variable {t n q c i}

theorem record_settle_of_ne (h : n ≠ some i) : (t.settle n q c).record i = t.record i := by
  refine record_eq_of_fields ?_ ?_ fun d => child_settle t n q c i d
  · rw [parent_settle, if_neg h]
  · rw [color_settle, if_neg h]

end Settle

/-- A shape settles by its top. -/
theorem hangs_settle_self {t : Tree} {s : Shape} {q : Option NodeId} (hs : s.Hangs t.store q)
    (hnodup : s.toList.Nodup) (q' : Option NodeId) (c : Color) :
    (s.paint c).Hangs (t.settle s.top q' c).store q' := by
  cases s with
  | leaf => trivial
  | node c' l n r =>
    obtain ⟨hn, hl, hr⟩ := hs
    obtain ⟨hnl, hnr, -⟩ := (nodup_toList_branch (d := .left)).mp hnodup
    obtain ⟨-, -, hleft, hright⟩ := record_eq_iff.mp hn
    refine ⟨record_eq_iff.mpr ?_, ?_, ?_⟩
    · simp [Shape.top, parent_settle, color_settle, hleft, hright]
    · exact (hangs_setColor hnl).mpr ((hangs_setParent hnl).mpr hl)
    · exact (hangs_setColor hnr).mpr ((hangs_setParent hnr).mpr hr)

/-- What hung below a node takes the place of that node. -/
theorem Around.reshapes_supplant {t : Tree} {p : Path} {s : Shape} {hole q : Option NodeId}
    (h : t.Around p hole) (hp : p.nodes.Nodup) (hs : s.Hangs t.store q) (hnodup : s.toList.Nodup)
    (hdisj : s.toList.Disjoint p.nodes) (color : Color) :
    t.Reshapes (t.supplant p.slot s.top color) (p.fill (s.paint color)) := by
  rw [← hangs_fill hdisj] at hs
  constructor
  · refine spells_fill_iff.mpr ⟨?_, ?_, ?_⟩
    · rw [top_paint]
      refine (h.fill hp s.top).congr (top_settle ..) fun i hi => record_settle_of_ne ?_
      exact top_ne_of_notMem fun his => hdisj his hi
    · rw [← Path.parent_slot]
      exact hangs_settle_self hs hnodup _ color
    · rw [toList_paint]
      exact ⟨hnodup, hp, hdisj⟩
  · intro i hi
    rw [Path.mem_toList_fill, toList_paint, not_or] at hi
    rw [supplant, record_settle_of_ne (top_ne_of_notMem hi.1), record_fill_slot hi.2]

end RedBlack.Tree
