import Mathlib.Data.List.Induction
import RedBlack.Proofs.Tree.Check
import RedBlack.Proofs.Tree.Termination

/-!
# Links that meet

The links of a store need not draw a tree: two slots can hold one node.  The check compares
every child with the node that it hangs from, so that a node cannot have two parents.  But
it takes the two slots of a node one by one, and sees nothing wrong when both hold the same
child; then everything below that child counts twice.

* `Unfolds` says what the check sees: the shape that the links draw from the top down, in
  which a node may stand more than once.  `Checks.accepted` goes through the rules of the
  check, and `exists_unfolds_of_validate` says that an accepted tree unfolds to a red-black
  shape.
* `nodeAt` is the node at the end of a way down, and `Shape.along` the same in a shape.
* `Genuine` is what an accepted tree is expected to be: every node lies on one way down, and
  the size counts the nodes.  `validate_genuine_iff` says when it is.
-/

namespace RedBlack

namespace Shape

variable {s : Shape} {n : NodeId} {d : Side}

/-! ## Ways down in a shape -/

/-- What hangs at the end of a way down. -/
def along (s : Shape) : List Side → Shape
  | [] => s
  | d :: way => (s.slot d).along way

@[simp] theorem along_leaf (way : List Side) : leaf.along way = leaf := by
  induction way with
  | nil => rfl
  | cons d way ih => exact ih

/-- The nodes of a shape are those at the ends of its ways down. -/
theorem mem_toList_iff_along : n ∈ s.toList ↔ ∃ way, (s.along way).top = some n := by
  induction s with
  | leaf => simp [toList, top]
  | node c l m r ihl ihr =>
    rw [toList, List.mem_append, List.mem_cons, ihl, ihr]
    constructor
    · rintro (⟨way, hway⟩ | rfl | ⟨way, hway⟩)
      · exact ⟨.left :: way, hway⟩
      · exact ⟨[], rfl⟩
      · exact ⟨.right :: way, hway⟩
    · rintro ⟨way, hway⟩
      cases way with
      | nil => exact .inr (.inl (Option.some.inj hway).symm)
      | cons d way =>
        cases d with
        | left => exact .inl ⟨way, hway⟩
        | right => exact .inr (.inr ⟨way, hway⟩)

/-- Where each node has one way, no node stands twice. -/
theorem nodup_toList_of_along
    (h : ∀ way way' n, (s.along way).top = some n → (s.along way').top = some n → way = way') :
    s.toList.Nodup := by
  induction s with
  | leaf => exact List.nodup_nil
  | node c l m r ihl ihr =>
    have hl : l.toList.Nodup := by
      refine ihl fun way way' n hn hn' => ?_
      exact (List.cons.inj (h (.left :: way) (.left :: way') n hn hn')).2
    have hr : r.toList.Nodup := by
      refine ihr fun way way' n hn hn' => ?_
      exact (List.cons.inj (h (.right :: way) (.right :: way') n hn hn')).2
    rw [toList, List.nodup_append', List.nodup_cons, List.disjoint_cons_right]
    refine ⟨hl, ⟨fun hm => ?_, hr⟩, fun hm => ?_, fun n hn hn' => ?_⟩
    · obtain ⟨way, hway⟩ := mem_toList_iff_along.mp hm
      cases h [] (.right :: way) m rfl hway
    · obtain ⟨way, hway⟩ := mem_toList_iff_along.mp hm
      cases h [] (.left :: way) m rfl hway
    · obtain ⟨way, hway⟩ := mem_toList_iff_along.mp hn
      obtain ⟨way', hway'⟩ := mem_toList_iff_along.mp hn'
      cases h (.left :: way) (.right :: way') n hway hway'

theorem Hangs.slot {t : Tree} {q : Option NodeId} (h : s.Hangs t.store q) (d : Side) :
    (s.slot d).Hangs t.store s.top := by
  cases s with
  | leaf => trivial
  | node c l n r =>
    cases d with
    | left => exact h.2.1
    | right => exact h.2.2

end Shape

namespace Tree

open Shape

variable {t : Tree} {s : Shape} {n m : NodeId} {d : Side} {st : Stats}

/-! ## The shape that the links draw -/

/-- The records below the top of a tree are those of a shape, in which a node may stand
more than once. -/
structure Unfolds (t : Tree) (s : Shape) : Prop where
  top : t.top = s.top
  hangs : s.Hangs t.store none

/-- From `n` on, the links draw the balanced shape `s`, which hangs below `q`; its measures
are `st`. -/
structure Draws (t : Tree) (n q : Option NodeId) (st : Stats) (s : Shape) : Prop where
  top : n = s.top
  hangs : s.Hangs t.store q
  balanced : s.Balanced st.blackHeight
  stats : s.stats = st

/-- What the links draw where the check comes to the answer `st`. -/
def Accepted (t : Tree) (st : Stats) : Site → Prop
  | .whole => ∃ s, t.Unfolds s ∧ s.IsRedBlack ∧ s.stats = st
  | .node _ n => ∃ s, t.Draws (some n) (t.parent n) st s
  | .slot _ n d => ∃ s, t.Draws (t.child n d) (some n) st s ∧ (t.color n = .red → s.isRed = false)

/-- Each rule that accepts builds a piece of the shape. -/
theorem Checks.accepted {site : Site} {a : Except Violation Stats} (h : t.Checks site a)
    (ha : a = .ok st) : t.Accepted st site := by
  induction h generalizing st with
  | empty htop =>
    cases ha
    exact ⟨leaf, ⟨htop, trivial⟩, ⟨rfl, trivial, trivial⟩, rfl⟩
  | top htop hcolor hparent _ ih =>
    obtain ⟨s, hs, hhangs, hbal, hstats⟩ := ih ha
    rw [hparent] at hhangs
    have hblack : s.isRed = false := by
      rw [← Bool.not_eq_true, ← color_of_hangs hhangs hs.symm, hcolor]
      simp
    exact ⟨s, ⟨htop.trans hs, hhangs⟩, isRedBlack_iff.mpr ⟨hblack, _, hbal⟩, hstats⟩
  | @even _ n _ _ _ _ _ heven ihl ihr =>
    cases ha
    obtain ⟨l, ⟨hltop, hlhangs, hlbal, rfl⟩, hlred⟩ := ihl rfl
    obtain ⟨r, ⟨hrtop, hrhangs, hrbal, rfl⟩, hrred⟩ := ihr rfl
    refine ⟨node (t.color n) l n r, rfl, ?_, ?_, rfl⟩
    · exact (hangs_branch (d := .left)).mpr ⟨⟨rfl, rfl, hltop, hrtop⟩, hlhangs, hrhangs⟩
    · refine balanced_node.mpr ⟨fun hred => ⟨hlred hred, hrred hred⟩, _, rfl, hlbal, ?_⟩
      rw [heven]
      exact hrbal
  | absent h =>
    cases ha
    exact ⟨leaf, ⟨h, trivial, balanced_leaf.mpr rfl, rfl⟩, fun _ => rfl⟩
  | enter h _ ih =>
    obtain ⟨s, hs⟩ := ih ha
    rw [h.parent, ← h.child] at hs
    refine ⟨s, hs, fun hn => ?_⟩
    rw [← Bool.not_eq_true, ← color_of_hangs hs.hangs (hs.top.symm.trans h.child)]
    exact fun hm => h.color ⟨hn, hm⟩
  | _ => cases ha

/-- A tree that passes the check unfolds to a red-black shape, which the answer measures. -/
theorem exists_unfolds_of_validate (h : t.validate = .ok st) :
    ∃ s, t.Unfolds s ∧ s.IsRedBlack ∧ s.stats = st :=
  t.checks_validate.accepted h

/-! ## Ways down along the links -/

/-- The node at the end of a way down from the top, if the way leads to one. -/
def nodeAt (t : Tree) (way : List Side) : Option NodeId :=
  way.foldl (fun n d => n.bind fun n => t.child n d) t.top

theorem nodeAt_append_singleton (t : Tree) (way : List Side) (d : Side) :
    t.nodeAt (way ++ [d]) = (t.nodeAt way).bind fun n => t.child n d := by
  rw [nodeAt, List.foldl_append]
  rfl

theorem foldl_child_of_hangs {q : Option NodeId} (hs : s.Hangs t.store q) (way : List Side) :
    way.foldl (fun n d => n.bind fun n => t.child n d) s.top = (s.along way).top := by
  induction way generalizing s q with
  | nil => rfl
  | cons d way ih =>
    have hstep : (s.top.bind fun n => t.child n d) = (s.slot d).top := by
      cases s with
      | leaf => rfl
      | node c l n r =>
        obtain ⟨⟨-, -, hleft, hright⟩, -⟩ := (hangs_branch (d := .left)).mp hs
        cases d with
        | left => exact hleft
        | right => exact hright
    rw [List.foldl_cons, hstep]
    exact ih (hs.slot d)

theorem Unfolds.nodeAt_eq (h : t.Unfolds s) (way : List Side) :
    t.nodeAt way = (s.along way).top := by
  rw [nodeAt, h.top]
  exact foldl_child_of_hangs h.hangs way

/-- One step down and one step up undo each other. -/
theorem parent_of_along {q : Option NodeId} {way : List Side} (hs : s.Hangs t.store q)
    (hm : (s.along (way ++ [d])).top = some m) : t.parent m = (s.along way).top := by
  induction way generalizing s q with
  | nil => exact parent_of_hangs (hs.slot d) hm
  | cons e way ih => exact ih (hs.slot e) hm

/-- What a node hangs from is found at the end of the way without its last step. -/
theorem Unfolds.parent_nodeAt {way : List Side} (h : t.Unfolds s)
    (hm : t.nodeAt (way ++ [d]) = some m) : t.parent m = t.nodeAt way := by
  rw [h.nodeAt_eq] at hm ⊢
  exact parent_of_along h.hangs hm

theorem Unfolds.parent_top (h : t.Unfolds s) (hn : t.nodeAt [] = some n) : t.parent n = none := by
  rw [h.nodeAt_eq] at hn
  exact parent_of_hangs h.hangs hn

/-! ## One way to each node -/

/-- Every node lies at the end of one way down from the top, and there are `k` nodes. -/
structure Genuine (t : Tree) (k : Nat) : Prop where
  once : ∀ way way' n, t.nodeAt way = some n → t.nodeAt way' = some n → way = way'
  count : ∃ xs : List NodeId, xs.Nodup ∧ (∀ n, n ∈ xs ↔ ∃ way, t.nodeAt way = some n) ∧
    xs.length = k

/-- Some node below the top holds one child in both of its slots. -/
def HoldsTwice (t : Tree) : Prop :=
  ∃ way n m, t.nodeAt way = some n ∧ t.child n .left = some m ∧ t.child n .right = some m

/-- Two ways to one node go back to the same parent, and on to the top. -/
theorem Unfolds.way_unique (h : t.Unfolds s) (htwice : ¬t.HoldsTwice) {way way' : List Side}
    (hn : t.nodeAt way = some n) (hn' : t.nodeAt way' = some n) : way = way' := by
  induction way using List.reverseRecOn generalizing n way' with
  | nil =>
    cases way' using List.reverseRecOn with
    | nil => rfl
    | append_singleton way' d =>
      have hparent := h.parent_nodeAt hn'
      rw [h.parent_top hn] at hparent
      rw [nodeAt_append_singleton, ← hparent] at hn'
      cases hn'
  | append_singleton way d ih =>
    have hparent := h.parent_nodeAt hn
    cases way' using List.reverseRecOn with
    | nil =>
      rw [h.parent_top hn'] at hparent
      rw [nodeAt_append_singleton, ← hparent] at hn
      cases hn
    | append_singleton way' d' =>
      have hparent' := h.parent_nodeAt hn'
      rw [nodeAt_append_singleton, Option.bind_eq_some_iff] at hn hn'
      obtain ⟨p, hp, hchild⟩ := hn
      obtain ⟨p', hp', hchild'⟩ := hn'
      obtain rfl : p = p' := by
        rw [← Option.some_inj, ← hp, ← hp', ← hparent, hparent']
      -- The last steps start at one node, so they take the same slot.
      have hside : d = d' := by
        cases d with
        | left =>
          cases d' with
          | left => rfl
          | right => exact absurd ⟨way, p, n, hp, hchild, hchild'⟩ htwice
        | right =>
          cases d' with
          | left => exact absurd ⟨way, p, n, hp, hchild', hchild⟩ htwice
          | right => rfl
      rw [ih hp hp', hside]

/-- Whatever the links are: a tree that the check accepts is a genuine one, whose nodes the
size counts, exactly when no node of it holds one child in both of its slots. -/
theorem validate_genuine_iff (h : t.validate = .ok st) :
    t.Genuine st.size ↔ ¬t.HoldsTwice := by
  obtain ⟨s, hs, -, rfl⟩ := exists_unfolds_of_validate h
  constructor
  · rintro ⟨honce, -⟩ ⟨way, n, m, hn, hleft, hright⟩
    have hdown : ∀ d, t.child n d = some m → t.nodeAt (way ++ [d]) = some m := by
      intro d hd
      rw [nodeAt_append_singleton, hn]
      exact hd
    have heq := honce _ _ m (hdown .left hleft) (hdown .right hright)
    cases List.append_cancel_left heq
  · intro htwice
    have honce : ∀ way way' n, t.nodeAt way = some n → t.nodeAt way' = some n → way = way' :=
      fun _ _ _ hn hn' => hs.way_unique htwice hn hn'
    refine ⟨honce, s.toList, ?_, fun n => ?_, (size_eq_length s).symm⟩
    · simp only [hs.nodeAt_eq] at honce
      exact nodup_toList_of_along honce
    · simp only [hs.nodeAt_eq]
      exact mem_toList_iff_along

/-- A node with two children that differ. -/
theorem validate_genuine_iff_of_two_children :
    let t := build {} (.node .black (.node .red .leaf 1 .leaf) 0 (.node .red .leaf 2 .leaf))
    t.validate = .ok ⟨3, 1, 2⟩ ∧ ¬t.HoldsTwice ∧ t.Genuine 3 := by
  intro t
  have h : t.validate = .ok ⟨3, 1, 2⟩ := rfl
  have hs : t.Spells (.node .black (.node .red .leaf 1 .leaf) 0 (.node .red .leaf 2 .leaf)) :=
    spells_build {} (by decide)
  have htwice : ¬t.HoldsTwice := by
    rintro ⟨way, n, m, hn, hleft, hright⟩
    have hunfolds : t.Unfolds _ := ⟨hs.top, hs.hangs⟩
    rw [hunfolds.nodeAt_eq] at hn
    have hmem : n ∈ [1, 0, 2] := mem_toList_iff_along.mpr ⟨way, hn⟩
    have hdiffer : ∀ i ∈ [1, 0, 2], t.child i .left = none ∨ t.child i .left ≠ t.child i .right := by
      decide
    rcases hdiffer n hmem with hnone | hne
    · rw [hleft] at hnone
      cases hnone
    · exact hne (hleft.trans hright.symm)
  exact ⟨h, htwice, (validate_genuine_iff h).mpr htwice⟩

/-- Two nodes, one of them in both slots of the other, pass the check and count as three. -/
theorem validate_accepts_shared_child :
    ∃ t st, validate t = .ok st ∧ st.size = 3 ∧
      (∀ n, (∃ way, t.nodeAt way = some n) ↔ n = 0 ∨ n = 1) ∧
      t.nodeAt [.left] = some 1 ∧ t.nodeAt [.right] = some 1 ∧ ¬t.Genuine st.size := by
  let t := (build {} (.node .black (.node .red .leaf 1 .leaf) 0 .leaf)).setChild 0 .right (some 1)
  let s : Shape := .node .black (.node .red .leaf 1 .leaf) 0 (.node .red .leaf 1 .leaf)
  have hs : t.Unfolds s :=
    ⟨rfl, rfl, ⟨rfl, trivial, trivial⟩, ⟨rfl, trivial, trivial⟩⟩
  refine ⟨t, ⟨3, 1, 2⟩, rfl, rfl, fun n => ?_, rfl, rfl, fun h => ?_⟩
  · simp only [hs.nodeAt_eq, ← mem_toList_iff_along, s, Shape.toList]
    simp
    tauto
  · cases h.once [.left] [.right] 1 rfl rfl

end Tree

end RedBlack
