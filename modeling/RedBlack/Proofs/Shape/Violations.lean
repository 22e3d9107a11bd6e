import RedBlack.Proofs.Shape.Nodes

/-!
# Shapes without violations

`Shape.violations` lists what a check from the top meets, one finding for each rule and
each node.  Here the list is compared with the rules themselves.

* `ParentsFit` is the rule on parent links, which a shape alone does not have.
* `edgeViolations_eq_nil_iff` and `innerViolations_eq_nil_iff` take the list apart along
  the recursion of shapes, and `violations_eq_nil_iff` is the result: nothing is found
  exactly in red-black shapes whose parent links fit.
-/

namespace RedBlack.Shape

/-- Every node has for a parent the one that it hangs from, and the top has `q`. -/
def ParentsFit (parentOf : NodeId → Option NodeId) (q : Option NodeId) : Shape → Prop
  | leaf => True
  | node _ l n r =>
    parentOf n = q ∧ l.ParentsFit parentOf (some n) ∧ r.ParentsFit parentOf (some n)

variable {parentOf : NodeId → Option NodeId}

theorem ParentsFit.parent_top {q : Option NodeId} {s : Shape} (h : s.ParentsFit parentOf q)
    {n : NodeId} (hn : s.top = some n) : parentOf n = q := by
  cases s with
  | leaf => cases hn
  | node c l m r =>
    cases hn
    exact h.1

/-- Nothing is wrong between a node and what hangs in one of its slots when the parent
link fits and not both are red. -/
theorem edgeViolations_eq_nil_iff {c : Color} {n : NodeId} {s : Shape} :
    s.edgeViolations parentOf c n = [] ↔
      (∀ m, s.top = some m → parentOf m = some n) ∧ (c = .red → s.isRed = false) := by
  cases s with
  | leaf => simp [edgeViolations, top, isRed]
  | node c' l m r =>
    simp only [edgeViolations, List.append_eq_nil_iff, ite_eq_left_iff, ite_eq_right_iff,
      List.cons_ne_nil, imp_false, not_not, not_and, top, Option.some.injEq, isRed,
      decide_eq_false_iff_not]
    constructor
    · rintro ⟨hparent, hred⟩
      exact ⟨fun _ hm => hm ▸ hparent, hred⟩
    · rintro ⟨hparent, hred⟩
      exact ⟨hparent m rfl, hred⟩

/-- Nothing is wrong below the top, and between the top and its children, when the shape
is balanced and all parent links but that of the top fit. -/
theorem innerViolations_eq_nil_iff {s : Shape} {q : Option NodeId}
    (htop : ∀ n, s.top = some n → parentOf n = q) :
    s.innerViolations parentOf = [] ↔ s.ParentsFit parentOf q ∧ ∃ h, s.Balanced h := by
  induction s generalizing q with
  | leaf => simp [innerViolations, ParentsFit]
  | node c l n r ihl ihr =>
    have hn : parentOf n = q := htop n rfl
    simp only [innerViolations, List.append_eq_nil_iff, edgeViolations_eq_nil_iff,
      ite_eq_left_iff, List.cons_ne_nil, imp_false, not_not]
    constructor
    · rintro ⟨⟨⟨⟨⟨hlp, hlc⟩, hl⟩, hrp, hrc⟩, hr⟩, heven⟩
      obtain ⟨hlfit, j, hlb⟩ := (ihl hlp).mp hl
      obtain ⟨hrfit, k, hrb⟩ := (ihr hrp).mp hr
      have hjk : j = k := by
        rw [← hlb.height.blackHeight_eq, ← hrb.height.blackHeight_eq, heven]
      subst hjk
      refine ⟨⟨hn, hlfit, hrfit⟩, j + c.weight, ?_⟩
      exact balanced_node.mpr ⟨fun hc => ⟨hlc hc, hrc hc⟩, j, rfl, hlb, hrb⟩
    · rintro ⟨⟨-, hlfit, hrfit⟩, h, hbal⟩
      obtain ⟨hred, k, -, hlb, hrb⟩ := balanced_node.mp hbal
      have hlp : ∀ m, l.top = some m → parentOf m = some n := fun _ => hlfit.parent_top
      have hrp : ∀ m, r.top = some m → parentOf m = some n := fun _ => hrfit.parent_top
      refine ⟨⟨⟨⟨⟨hlp, fun hc => (hred hc).1⟩, (ihl hlp).mpr ⟨hlfit, k, hlb⟩⟩, hrp,
        fun hc => (hred hc).2⟩, (ihr hrp).mpr ⟨hrfit, k, hrb⟩⟩, ?_⟩
      rw [hlb.height.blackHeight_eq, hrb.height.blackHeight_eq]

/-- Nothing is wrong with a shape exactly when it follows the rules and every parent link
fits. -/
theorem violations_eq_nil_iff {s : Shape} :
    s.violations parentOf = [] ↔ s.ParentsFit parentOf none ∧ s.IsRedBlack := by
  cases s with
  | leaf => simp [violations, ParentsFit, isRedBlack_iff, isRed]
  | node c l n r =>
    simp only [violations, List.append_eq_nil_iff, ite_eq_right_iff, List.cons_ne_nil, imp_false,
      Bool.not_eq_true, Option.isSome_eq_false_iff, Option.isNone_iff_eq_none, isRedBlack_iff,
      isRed, decide_eq_false_iff_not]
    constructor
    · rintro ⟨⟨hcolor, hparent⟩, hinner⟩
      have htop : ∀ m, (node c l n r).top = some m → parentOf m = none := by
        rintro m ⟨⟩
        exact hparent
      obtain ⟨hfit, hbal⟩ := (innerViolations_eq_nil_iff htop).mp hinner
      exact ⟨hfit, hcolor, hbal⟩
    · rintro ⟨hfit, hcolor, hbal⟩
      have hinner := (innerViolations_eq_nil_iff fun _ => hfit.parent_top).mpr ⟨hfit, hbal⟩
      exact ⟨⟨hcolor, hfit.1⟩, hinner⟩

end RedBlack.Shape
