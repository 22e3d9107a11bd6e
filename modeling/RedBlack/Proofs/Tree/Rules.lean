import RedBlack.Proofs.Tree.Check

/-!
# The check and the rules on links

The rules of red-black trees can be said of the links alone: of the children of each node,
and of all ways down from it.  This module says them so, without the recursion that a
check takes, and compares them with the answer of the check.

* `Descends` is a way down to an absent child, and `mem_pathWeights_iff`,
  `length_le_height` and `exists_descends_height` measure the ways of a shape.
* `RulesAt` are the rules at one node, and `FollowsRules` adds what is asked of the top.
* `validate_accepts_exactly` is the result: whatever the colours and the parent links of a
  tree are, the check accepts it exactly when it follows the rules, and then measures all
  of its ways.
-/

namespace RedBlack.Tree

open Shape

/-! ## Ways down -/

/-- The nodes on a way down, from a node if there is one to an absent child. -/
inductive Descends (t : Tree) : Option NodeId → List NodeId → Prop where
  | absent : Descends t none []
  | down {n : NodeId} {way : List NodeId} (d : Side) (h : Descends t (t.child n d) way) :
      Descends t (some n) (n :: way)

/-- The number of black nodes on a way. -/
def blacks (t : Tree) (way : List NodeId) : Nat := way.countP fun n => t.color n = .black

variable {t : Tree} {s : Shape} {n : NodeId} {way : List NodeId}

theorem descends_none_iff : t.Descends none way ↔ way = [] := by
  constructor
  · intro h
    cases h
    rfl
  · rintro rfl
    exact .absent

theorem descends_some_iff :
    t.Descends (some n) way ↔ ∃ d rest, way = n :: rest ∧ t.Descends (t.child n d) rest := by
  constructor
  · intro h
    cases h with
    | down d h => exact ⟨d, _, rfl, h⟩
  · rintro ⟨d, rest, rfl, h⟩
    exact .down d h

/-- The ways of a shape are those that start with its top and go on in one of its slots. -/
theorem descends_node_iff {c : Color} {l r : Shape} (hs : (node c l n r).Drawn t) :
    t.Descends (some n) way ↔
      ∃ rest, way = n :: rest ∧ (t.Descends l.top rest ∨ t.Descends r.top rest) := by
  obtain ⟨⟨-, hleft, hright⟩, -⟩ := hs
  rw [descends_some_iff]
  constructor
  · rintro ⟨d, rest, rfl, h⟩
    cases d with
    | left => exact ⟨rest, rfl, .inl (hleft ▸ h)⟩
    | right => exact ⟨rest, rfl, .inr (hright ▸ h)⟩
  · rintro ⟨rest, rfl, h | h⟩
    · exact ⟨.left, rest, rfl, hleft ▸ h⟩
    · exact ⟨.right, rest, rfl, hright ▸ h⟩

theorem blacks_cons {c : Color} (hcolor : t.color n = c) :
    t.blacks (n :: way) = t.blacks way + c.weight := by
  rw [blacks, List.countP_cons, hcolor]
  cases c <;> rfl

/-- The path weights of a shape count the black nodes on its ways. -/
theorem mem_pathWeights_iff {w : Nat} (hs : s.Drawn t) :
    w ∈ s.pathWeights ↔ ∃ way, t.Descends s.top way ∧ t.blacks way = w := by
  induction s generalizing w with
  | leaf =>
    simp only [pathWeights, List.mem_singleton, Shape.top, descends_none_iff, exists_eq_left]
    exact eq_comm
  | node c l n r ihl ihr =>
    obtain ⟨⟨hcolor, -⟩, hl, hr⟩ := id hs
    simp only [pathWeights, List.mem_map, List.mem_append, ihl hl, ihr hr, Shape.top,
      descends_node_iff hs]
    constructor
    · rintro ⟨v, ⟨way, hway, rfl⟩ | ⟨way, hway, rfl⟩, rfl⟩
      · exact ⟨n :: way, ⟨way, rfl, .inl hway⟩, blacks_cons hcolor⟩
      · exact ⟨n :: way, ⟨way, rfl, .inr hway⟩, blacks_cons hcolor⟩
    · rintro ⟨way, ⟨rest, rfl, hway⟩, rfl⟩
      refine ⟨t.blacks rest, ?_, (blacks_cons hcolor).symm⟩
      rcases hway with hway | hway
      · exact .inl ⟨rest, hway, rfl⟩
      · exact .inr ⟨rest, hway, rfl⟩

/-- No way is longer than the height. -/
theorem length_le_height (hs : s.Drawn t) (h : t.Descends s.top way) : way.length ≤ s.height := by
  induction s generalizing way with
  | leaf =>
    rw [descends_none_iff.mp h]
    exact Nat.zero_le _
  | node c l n r ihl ihr =>
    obtain ⟨rest, rfl, hrest⟩ := (descends_node_iff hs).mp h
    rw [List.length_cons, height]
    rcases hrest with hrest | hrest
    · have := ihl hs.2.1 hrest
      omega
    · have := ihr hs.2.2 hrest
      omega

/-- Some way is as long as the height. -/
theorem exists_descends_height (hs : s.Drawn t) :
    ∃ way, t.Descends s.top way ∧ way.length = s.height := by
  induction s with
  | leaf => exact ⟨[], .absent, rfl⟩
  | node c l n r ihl ihr =>
    obtain ⟨wayl, hwayl, hl⟩ := ihl hs.2.1
    obtain ⟨wayr, hwayr, hr⟩ := ihr hs.2.2
    rw [height]
    by_cases hle : r.height ≤ l.height
    · refine ⟨n :: wayl, (descends_node_iff hs).mpr ⟨wayl, rfl, .inl hwayl⟩, ?_⟩
      rw [List.length_cons]
      omega
    · refine ⟨n :: wayr, (descends_node_iff hs).mpr ⟨wayr, rfl, .inr hwayr⟩, ?_⟩
      rw [List.length_cons]
      omega

/-! ## The rules -/

/-- The rules at one node: its children hang from it, they are not red when it is, and all
ways down from it pass the same number of black nodes. -/
structure RulesAt (t : Tree) (n : NodeId) : Prop where
  parent : ∀ d m, t.child n d = some m → t.parent m = some n
  color : ∀ d m, t.child n d = some m → ¬(t.color n = .red ∧ t.color m = .red)
  even : ∀ way way', t.Descends (some n) way → t.Descends (some n) way' →
    t.blacks way = t.blacks way'

/-- The rules of a tree with the nodes `xs`: the top is black and hangs from nothing, and
each node follows the rules. -/
structure FollowsRules (t : Tree) (xs : List NodeId) : Prop where
  top : ∀ n, t.top = some n → t.color n = .black ∧ t.parent n = none
  node : ∀ n ∈ xs, t.RulesAt n

/-- The measures of a tree with the nodes `xs`: how many they are, the black nodes on each
way down from the top, and the length of the longest such way. -/
structure Measured (t : Tree) (xs : List NodeId) (st : Stats) : Prop where
  size : st.size = xs.length
  blackHeight : ∀ way, t.Descends t.top way → t.blacks way = st.blackHeight
  length_le : ∀ way, t.Descends t.top way → way.length ≤ st.height
  exists_length : ∃ way, t.Descends t.top way ∧ way.length = st.height

/-! ## The rules of a shape -/

/-- What is asked of the children of a node is asked of the tops of its two subtrees. -/
theorem forall_child_iff {c : Color} {l r : Shape} {P : NodeId → Prop}
    (hs : (Shape.node c l n r).Drawn t) :
    (∀ d m, t.child n d = some m → P m) ↔
      (∀ m, l.top = some m → P m) ∧ ∀ m, r.top = some m → P m := by
  obtain ⟨⟨-, hleft, hright⟩, -⟩ := hs
  rw [← hleft, ← hright]
  constructor
  · intro h
    exact ⟨h .left, h .right⟩
  · rintro ⟨hl, hr⟩ d
    cases d with
    | left => exact hl
    | right => exact hr

/-- A red node has no red child in a slot when what hangs there has no red top. -/
theorem forall_top_color_iff (hs : s.Drawn t) :
    (∀ m, s.top = some m → ¬(t.color n = .red ∧ t.color m = .red)) ↔
      (t.color n = .red → s.isRed = false) := by
  constructor
  · intro h hn
    cases hm : s.top with
    | none =>
      rw [top_eq_none_iff.mp hm]
      rfl
    | some m =>
      rw [← Bool.not_eq_true, ← color_of_drawn hs hm]
      exact fun hred => h m hm ⟨hn, hred⟩
  · rintro h m hm ⟨hn, hred⟩
    rw [color_of_drawn hs hm, h hn] at hred
    cases hred

/-- All ways down pass the same number of black nodes when all path weights are the same. -/
theorem forall_descends_iff (hs : s.Drawn t) :
    (∀ way way', t.Descends s.top way → t.Descends s.top way' → t.blacks way = t.blacks way') ↔
      ∀ a ∈ s.pathWeights, ∀ b ∈ s.pathWeights, a = b := by
  simp only [mem_pathWeights_iff hs]
  constructor
  · rintro h _ ⟨way, hway, rfl⟩ _ ⟨way', hway', rfl⟩
    exact h way way' hway hway'
  · intro h way way' hway hway'
    exact h _ ⟨way, hway, rfl⟩ _ ⟨way', hway', rfl⟩

/-- The nodes of a shape follow the rules when the shape does, and the parent links below
the top fit. -/
theorem forall_rulesAt_iff {q : Option NodeId} (hs : s.Drawn t)
    (htop : ∀ n, s.top = some n → t.parent n = q) :
    (∀ n ∈ s.toList, t.RulesAt n) ↔ s.ParentsFit t.parent q ∧ s.NoRedRed ∧ s.EvenPaths := by
  induction s generalizing q with
  | leaf => simp [Shape.toList, ParentsFit, NoRedRed, EvenPaths]
  | node c l n r ihl ihr =>
    obtain ⟨⟨hcolor, -⟩, hl, hr⟩ := id hs
    have hn : t.parent n = q := htop n rfl
    -- The rules at the node itself, in terms of the two subtrees.
    have hnode : t.RulesAt n ↔
        ((∀ m, l.top = some m → t.parent m = some n) ∧
          ∀ m, r.top = some m → t.parent m = some n) ∧
        (c = .red → l.isRed = false ∧ r.isRed = false) ∧
        ∀ a ∈ (Shape.node c l n r).pathWeights, ∀ b ∈ (Shape.node c l n r).pathWeights,
          a = b := by
      rw [← forall_child_iff hs, ← forall_descends_iff hs, ← hcolor, imp_and,
        ← forall_top_color_iff hl, ← forall_top_color_iff hr, ← forall_child_iff hs]
      constructor
      · rintro ⟨hparent, hred, heven⟩
        exact ⟨hparent, hred, heven⟩
      · rintro ⟨hparent, hred, heven⟩
        exact ⟨hparent, hred, heven⟩
    have hlist : (∀ m ∈ (Shape.node c l n r).toList, t.RulesAt m) ↔
        (∀ m ∈ l.toList, t.RulesAt m) ∧ t.RulesAt n ∧ ∀ m ∈ r.toList, t.RulesAt m := by
      rw [Shape.toList, List.forall_mem_append, List.forall_mem_cons]
    rw [hlist, hnode, ParentsFit, NoRedRed, EvenPaths]
    constructor
    · rintro ⟨hlrules, ⟨⟨hlp, hrp⟩, hred, heven⟩, hrrules⟩
      obtain ⟨hlfit, hlred, hleven⟩ := (ihl hl hlp).mp hlrules
      obtain ⟨hrfit, hrred, hreven⟩ := (ihr hr hrp).mp hrrules
      exact ⟨⟨hn, hlfit, hrfit⟩, ⟨hred, hlred, hrred⟩, heven, hleven, hreven⟩
    · rintro ⟨⟨-, hlfit, hrfit⟩, ⟨hred, hlred, hrred⟩, heven, hleven, hreven⟩
      have hlp : ∀ m, l.top = some m → t.parent m = some n := fun _ => hlfit.parent_top
      have hrp : ∀ m, r.top = some m → t.parent m = some n := fun _ => hrfit.parent_top
      exact ⟨(ihl hl hlp).mpr ⟨hlfit, hlred, hleven⟩, ⟨⟨hlp, hrp⟩, hred, heven⟩,
        (ihr hr hrp).mpr ⟨hrfit, hrred, hreven⟩⟩

/-- A tree follows the rules when its shape does and all parent links fit. -/
theorem Outlines.followsRules_iff (h : t.Outlines s) :
    t.FollowsRules s.toList ↔ s.ParentsFit t.parent none ∧ s.IsRedBlack := by
  constructor
  · rintro ⟨htop, hnode⟩
    have hparent : ∀ n, s.top = some n → t.parent n = none := by
      intro n hn
      exact (htop n (h.top.trans hn)).2
    obtain ⟨hfit, hred, heven⟩ := (forall_rulesAt_iff h.drawn hparent).mp hnode
    refine ⟨hfit, ?_, hred, heven⟩
    cases hn : s.top with
    | none =>
      rw [top_eq_none_iff.mp hn]
      rfl
    | some n =>
      rw [← Bool.not_eq_true, ← color_of_drawn h.drawn hn, (htop n (h.top.trans hn)).1]
      simp
  · rintro ⟨hfit, hblack, hred, heven⟩
    have hparent : ∀ n, s.top = some n → t.parent n = none := fun _ => hfit.parent_top
    refine ⟨?_, (forall_rulesAt_iff h.drawn hparent).mpr ⟨hfit, hred, heven⟩⟩
    intro n hn
    rw [h.top] at hn
    refine ⟨?_, hparent n hn⟩
    cases hc : t.color n with
    | black => rfl
    | red =>
      rw [color_of_drawn h.drawn hn, hblack] at hc
      cases hc

/-- The measures of a red-black shape are those of all ways down. -/
theorem Outlines.measured (h : t.Outlines s) (heven : s.EvenPaths) :
    t.Measured s.toList s.stats where
  size := size_eq_length s
  blackHeight := by
    intro way hway
    rw [h.top] at hway
    exact heven.hasBlackHeight.eq_of_mem_pathWeights
      ((mem_pathWeights_iff h.drawn).mpr ⟨way, hway, rfl⟩)
  length_le := by
    intro way hway
    rw [h.top] at hway
    exact length_le_height h.drawn hway
  exists_length := by
    rw [h.top]
    exact exists_descends_height h.drawn

/-- Whatever the colours and the parent links of a tree are, the check accepts it exactly
when it follows the rules, and then answers its measures. -/
theorem validate_accepts_exactly (h : t.Outlines s) :
    ((∃ st, t.validate = .ok st) ↔ t.FollowsRules s.toList) ∧
      ∀ st, t.validate = .ok st → t.Measured s.toList st := by
  rw [h.followsRules_iff, ← violations_eq_nil_iff, h.validate]
  simp only [verdict_eq_ok_iff]
  constructor
  · constructor
    · rintro ⟨st, hnil, -⟩
      exact hnil
    · intro hnil
      exact ⟨s.stats, hnil, rfl⟩
  · rintro st ⟨hnil, rfl⟩
    exact h.measured (violations_eq_nil_iff.mp hnil).2.evenPaths

/-- A tree of even paths in which the parent link of a grandchild is lost. -/
theorem validate_accepts_exactly_of_lost_link :
    let s : Shape := .node .black (.node .black .leaf 1 .leaf) 5
      (.node .red (.node .black .leaf 7 .leaf) 8 (.node .black .leaf 9 (.node .red .leaf 2 .leaf)))
    let t := (build {} s).setParent 2 none
    t.Outlines s ∧ ((∃ st, t.validate = .ok st) ↔ t.FollowsRules [1, 5, 7, 8, 9, 2]) ∧
      ∀ st, t.validate = .ok st → t.Measured [1, 5, 7, 8, 9, 2] st := by
  intro s t
  have h : t.Outlines s := ⟨rfl, by decide, by decide⟩
  exact ⟨h, validate_accepts_exactly h⟩

end RedBlack.Tree
