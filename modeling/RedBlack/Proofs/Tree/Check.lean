import RedBlack.Proofs.Shape.Violations
import RedBlack.Proofs.Tree.Around
import RedBlack.Tree.Check

/-!
# What the check answers

The links below the top of a tree draw a shape also when its parent links do not fit and
its colours break the rules.  On such a tree the check answers the first of the
violations of the shape, or its measures when there are none.

* `verdict` is that answer, and `verdict_bind` follows the order of the search.
* `Outlines` says that the colours and the child links of a tree draw a shape, and
  `spells_iff` that only the parent links are missing.
* `checkBelow_eq` is the induction over the shape.  The nodes that were entered before are
  different and have records, so that the depth suffices and the count fits.
* `Outlines.validate` adds what is asked of the top, and `Spells.validate` is the case of a
  red-black tree.
-/

namespace RedBlack

namespace Shape

/-- The measures of a shape. -/
def stats (s : Shape) : Stats := ⟨s.size, s.blackHeight, s.height⟩

theorem size_eq_length (s : Shape) : s.size = s.toList.length := by
  induction s with
  | leaf => rfl
  | node c l n r ihl ihr =>
    rw [size, toList, List.length_append, List.length_cons, ihl, ihr]
    omega

/-- The colours and the child links of a tree are those of a shape. -/
def Drawn (t : Tree) : Shape → Prop
  | leaf => True
  | node c l n r =>
    (t.color n = c ∧ t.child n .left = l.top ∧ t.child n .right = r.top) ∧ l.Drawn t ∧ r.Drawn t

instance decidableDrawn (t : Tree) : (s : Shape) → Decidable (s.Drawn t)
  | leaf => .isTrue trivial
  | node c l n r =>
    have := decidableDrawn t l
    have := decidableDrawn t r
    inferInstanceAs (Decidable
      ((t.color n = c ∧ t.child n .left = l.top ∧ t.child n .right = r.top) ∧
        l.Drawn t ∧ r.Drawn t))

end Shape

/-! ## The first violation -/

/-- An answer, unless something is wrong: then the first violation. -/
def verdict {α : Type} (vs : List Violation) (a : α) : Except Violation α :=
  match vs with
  | [] => .ok a
  | v :: _ => .error v

/-- What is wrong in one part comes before what is wrong in the next one, which is looked at
when nothing is wrong in the first. -/
theorem verdict_bind {α β : Type} {vs ws : List Violation} {a : α} {b : β}
    {next : α → Except Violation β} (h : vs = [] → next a = verdict ws b) :
    (verdict vs a >>= next) = verdict (vs ++ ws) b := by
  cases vs with
  | nil => exact h rfl
  | cons v vs => rfl

theorem verdict_eq_ok_iff {α : Type} {vs : List Violation} {a b : α} :
    verdict vs a = .ok b ↔ vs = [] ∧ a = b := by
  cases vs <;> simp [verdict]

namespace Tree

open Shape

/-- The colours and the child links below the top of a tree are those of a shape, which
names no node twice.  The parent links can be anything. -/
structure Outlines (t : Tree) (s : Shape) : Prop where
  top : t.top = s.top
  drawn : s.Drawn t
  nodup : s.toList.Nodup

variable {t : Tree} {s : Shape}

theorem hangs_iff {q : Option NodeId} :
    s.Hangs t.store q ↔ s.Drawn t ∧ s.ParentsFit t.parent q := by
  induction s generalizing q with
  | leaf => simp [Hangs, Drawn, ParentsFit]
  | node c l n r ihl ihr =>
    rw [Hangs, Drawn, ParentsFit, record_eq_iff, ihl, ihr]
    tauto

/-- A tree spells a shape when it outlines it and every parent link fits. -/
theorem spells_iff : t.Spells s ↔ t.Outlines s ∧ s.ParentsFit t.parent none := by
  constructor
  · rintro ⟨htop, hhangs, hnodup⟩
    obtain ⟨hdrawn, hfit⟩ := hangs_iff.mp hhangs
    exact ⟨⟨htop, hdrawn, hnodup⟩, hfit⟩
  · rintro ⟨⟨htop, hdrawn, hnodup⟩, hfit⟩
    exact ⟨htop, hangs_iff.mpr ⟨hdrawn, hfit⟩, hnodup⟩

theorem color_of_drawn {n : NodeId} (hs : s.Drawn t) (hn : s.top = some n) :
    t.color n = .red ↔ s.isRed = true := by
  cases s with
  | leaf => cases hn
  | node c l m r =>
    cases hn
    rw [hs.1.1, isRed, decide_eq_true_iff]

/-! ## Below a node -/

/-- A slot answers what is wrong on the edge to what hangs there, and then what is wrong
below. -/
theorem checkSlot_eq {below : NodeId → Except Violation Stats} {c : Color} {n : NodeId}
    {d : Side} (hcolor : t.color n = c) (hslot : t.child n d = s.top) (hs : s.Drawn t)
    (hbelow : ∀ m, s.top = some m → t.parent m = some n →
      below m = verdict (s.innerViolations t.parent) s.stats) :
    t.checkSlot below n d =
      verdict (s.edgeViolations t.parent c n ++ s.innerViolations t.parent) s.stats := by
  rw [checkSlot, hslot]
  cases s with
  | leaf => rfl
  | node c' l m r =>
    obtain ⟨⟨hm, -⟩, -⟩ := hs
    simp only [Shape.top, edgeViolations, hcolor, hm]
    by_cases hparent : t.parent m = some n
    · by_cases hred : c = .red ∧ c' = .red
      · simp [hparent, hred, verdict]
      · simp [hparent, hred, hbelow m rfl hparent]
    · simp [hparent, verdict]

/-- A node answers what is wrong in its slots, and then what is wrong between them. -/
theorem joined_verdict {n : NodeId} {vs ws : List Violation} {l r : Stats}
    {right : Stats → Except Violation Stats} (h : vs = [] → right l = verdict ws r) :
    t.joined n (verdict vs l) right =
      verdict (vs ++ (ws ++ if l.blackHeight = r.blackHeight then [] else
        [.blackHeight n l.blackHeight r.blackHeight])) (.join (t.color n) l r) := by
  rw [joined]
  refine verdict_bind fun hvs => ?_
  rw [h hvs]
  refine verdict_bind fun _ => ?_
  split <;> rfl

/-- Where nothing is wrong in a slot, all that hangs there has records. -/
theorem lt_size_of_clean {c : Color} {n : NodeId} (hs : s.Drawn t)
    (hclean : s.edgeViolations t.parent c n ++ s.innerViolations t.parent = []) :
    ∀ i ∈ s.toList, i < t.store.size := by
  obtain ⟨hedge, hinner⟩ := List.append_eq_nil_iff.mp hclean
  have hparent := (edgeViolations_eq_nil_iff.mp hedge).1
  have hfit := ((innerViolations_eq_nil_iff hparent).mp hinner).1
  exact fun i hi => lt_size_of_hangs (hangs_iff.mpr ⟨hs, hfit⟩) hi

/-- The check below a node answers what is wrong below it.  The nodes that it has counted
before are `past`; those and the node itself are different and have records. -/
theorem checkBelow_eq (past : List NodeId) {n : NodeId} {depth : Nat} (hs : s.Drawn t)
    (hn : s.top = some n) (hnodup : (past ++ s.toList).Nodup)
    (hsize : ∀ i ∈ n :: past, i < t.store.size) (hdepth : t.store.size ≤ depth + past.length) :
    t.checkBelow depth past.length n = verdict (s.innerViolations t.parent) s.stats := by
  induction s generalizing n past depth with
  | leaf => cases hn
  | node c l m r ihl ihr =>
    cases hn
    obtain ⟨⟨hcolor, hleft, hright⟩, hl, hr⟩ := hs
    rw [Shape.toList, ← List.append_assoc, List.nodup_middle] at hnodup
    -- Both subtrees come after the node, and the right one after the left one.
    have hnodupl : (m :: past ++ l.toList).Nodup :=
      hnodup.sublist ((List.sublist_append_left (past ++ l.toList) r.toList).cons_cons m)
    have hlength : (m :: past).length ≤ t.store.size :=
      length_le_of_nodup (hnodupl.sublist (List.sublist_append_left ..)) hsize
    rw [List.length_cons] at hlength
    obtain ⟨depth, rfl⟩ : ∃ j, depth = j + 1 := ⟨depth - 1, by omega⟩
    have hseen : past.length + 1 < t.countLimit :=
      Nat.lt_of_le_of_lt hlength t.size_lt_countLimit
    have hchild : ∀ k, t.parent k = some m → k < t.store.size := by
      intro k hk
      exact lt_size_of_parent (by rw [hk]; simp)
    have hlslot : t.checkSlot (t.checkBelow depth (past.length + 1)) m .left = _ :=
      checkSlot_eq hcolor hleft hl fun k hk hparent =>
        ihl (m :: past) hl hk hnodupl (List.forall_mem_cons.mpr ⟨hchild k hparent, hsize⟩)
          (by rw [List.length_cons]; omega)
    have hrslot (hclean : l.edgeViolations t.parent c m ++ l.innerViolations t.parent = []) :
        t.checkSlot (t.checkBelow depth (past.length + 1 + l.stats.size)) m .right =
          verdict (r.edgeViolations t.parent c m ++ r.innerViolations t.parent) r.stats := by
      have hcount : past.length + 1 + l.stats.size = (m :: past ++ l.toList).length := by
        rw [List.length_append, List.length_cons, ← size_eq_length]
        rfl
      have hpast : ∀ i ∈ m :: past ++ l.toList, i < t.store.size :=
        List.forall_mem_append.mpr ⟨hsize, lt_size_of_clean hl hclean⟩
      rw [hcount]
      exact checkSlot_eq hcolor hright hr fun k hk hparent =>
        ihr (m :: past ++ l.toList) hr hk hnodup
          (List.forall_mem_cons.mpr ⟨hchild k hparent, hpast⟩)
          (by rw [List.length_append, List.length_cons]; omega)
    rw [checkBelow, if_pos hseen, hlslot, joined_verdict hrslot, innerViolations, hcolor]
    simp only [List.append_assoc]
    rfl

/-! ## The whole tree -/

/-- The check answers the first violation of the shape that the links draw, or its measures
when nothing is wrong. -/
theorem Outlines.validate (h : t.Outlines s) :
    t.validate = verdict (s.violations t.parent) s.stats := by
  rw [Tree.validate, h.top]
  cases s with
  | leaf => rfl
  | node c l n r =>
    obtain ⟨⟨hcolor, -⟩, -⟩ := id h.drawn
    simp only [Shape.top, hcolor, violations]
    cases c with
    | red => rfl
    | black =>
      by_cases hparent : (t.parent n).isSome = true
      · simp [hparent, verdict]
      · have hsize : ∀ i ∈ [n], i < t.store.size := by
          intro i hi
          rw [List.mem_singleton.mp hi]
          exact lt_size_of_color hcolor
        have hbelow : t.checkBelow t.store.size 0 n = _ :=
          checkBelow_eq [] h.drawn rfl h.nodup hsize (Nat.le_refl _)
        simp [hparent, hbelow]

/-- A red-black tree passes the check, which measures it. -/
theorem Spells.validate (h : t.Spells s) (hs : s.IsRedBlack) : t.validate = .ok s.stats := by
  obtain ⟨houtlines, hfit⟩ := spells_iff.mp h
  rw [houtlines.validate, violations_eq_nil_iff.mpr ⟨hfit, hs⟩]
  rfl

end Tree

end RedBlack
