import RedBlack.Proofs.Tree.Rules

/-!
# The first thing that is wrong

The check stops at the first rule that it finds broken, in the middle of a recursion.  Here
its answer is compared with a list that has no recursion on answers in it: the rules are
asked one after the other, at every node of the tree, and the answer is about the first one
that does not hold.

* A `Question` is a rule at the nodes that it is about.  `Question.Holds` reads the links
  only, and `Shape.questions` is the order of the search.
* `Denies` says what a violation means: which question it answers, and what is so at the
  nodes that it names.
* `Reports` compares questions with a list of violations, and `Reports.append` is the one
  step of the comparison: a question may rely on everything that was asked before it.
* `validate_first_violation` is the result.
-/

namespace RedBlack

/-! ## Questions -/

/-- A rule of red-black trees, at the nodes that it is about. -/
inductive Question where
  /-- The top is black. -/
  | topBlack (n : NodeId)
  /-- The top hangs from nothing. -/
  | topFree (n : NodeId)
  /-- The child `m` of `n` hangs from `n`. -/
  | pointsBack (n m : NodeId)
  /-- Of `n` and its child `m` at most one is red. -/
  | notBothRed (n m : NodeId)
  /-- All ways down from `n` pass the same number of black nodes. -/
  | even (n : NodeId)
  deriving DecidableEq, Repr

/-- The rule is kept. -/
def Question.Holds (t : Tree) : Question → Prop
  | topBlack n => t.color n = .black
  | topFree n => t.parent n = none
  | pointsBack n m => t.parent m = some n
  | notBothRed n m => ¬(t.color n = .red ∧ t.color m = .red)
  | even n => ∀ way way', t.Descends (some n) way → t.Descends (some n) way' →
      t.blacks way = t.blacks way'

namespace Shape

/-- What is asked between a node and what hangs in one of its slots. -/
def edgeQuestions (n : NodeId) : Shape → List Question
  | leaf => []
  | node _ _ m _ => [.pointsBack n m, .notBothRed n m]

/-- What is asked below the top and at the top. -/
def innerQuestions : Shape → List Question
  | leaf => []
  | node _ l n r =>
    l.edgeQuestions n ++ l.innerQuestions ++ r.edgeQuestions n ++ r.innerQuestions ++ [.even n]

/-- Everything that is asked about a whole shape. -/
def questions : Shape → List Question
  | leaf => []
  | node c l n r => [.topBlack n] ++ [.topFree n] ++ (node c l n r).innerQuestions

end Shape

namespace Tree

open Shape

variable {t : Tree} {s : Shape} {xs : List NodeId} {q : Question} {v : Violation}

/-- In a tree with the nodes `xs`, the question is denied, and the violation says why.  The
numbers of an uneven node count the black nodes on all ways down its two sides. -/
inductive Denies (t : Tree) (xs : List NodeId) : Question → Violation → Prop where
  | redTop {n : NodeId} (h : t.top = some n) (hred : t.color n = .red) :
      Denies t xs (.topBlack n) (.redTop n)
  | topHasParent {n : NodeId} (h : t.top = some n) (hparent : t.parent n ≠ none) :
      Denies t xs (.topFree n) (.topHasParent n)
  | brokenParent {n m : NodeId} {d : Side} (hn : n ∈ xs) (h : t.child n d = some m)
      (hparent : t.parent m ≠ some n) : Denies t xs (.pointsBack n m) (.brokenParent n m)
  | redRed {n m : NodeId} {d : Side} (hn : n ∈ xs) (h : t.child n d = some m)
      (hred : t.color n = .red ∧ t.color m = .red) : Denies t xs (.notBothRed n m) (.redRed n m)
  | uneven {n : NodeId} {left right : Nat} (hn : n ∈ xs)
      (hleft : ∀ way, t.Descends (t.child n .left) way → t.blacks way = left)
      (hright : ∀ way, t.Descends (t.child n .right) way → t.blacks way = right)
      (hne : left ≠ right) : Denies t xs (.even n) (.blackHeight n left right)

/-! ## Questions and violations side by side -/

/-- The violations begin with what denies the first question that does not hold; without
violations all questions hold. -/
def Reports (t : Tree) (xs : List NodeId) (qs : List Question) : List Violation → Prop
  | [] => ∀ q ∈ qs, q.Holds t
  | v :: _ => ∃ before q after, qs = before ++ q :: after ∧ (∀ p ∈ before, p.Holds t) ∧
      t.Denies xs q v

/-- What is reported in one part comes before what is reported in the next one, where the
first part may be taken for granted. -/
theorem Reports.append {qs qs' : List Question} {vs vs' : List Violation}
    (h : t.Reports xs qs vs) (h' : vs = [] → t.Reports xs qs' vs') :
    t.Reports xs (qs ++ qs') (vs ++ vs') := by
  cases vs with
  | nil =>
    have hrest := h' rfl
    cases vs' with
    | nil =>
      intro q hq
      rcases List.mem_append.mp hq with hq | hq
      · exact h q hq
      · exact hrest q hq
    | cons v vs' =>
      obtain ⟨before, q, after, rfl, hbefore, hv⟩ := hrest
      refine ⟨qs ++ before, q, after, by simp, fun p hp => ?_, hv⟩
      rcases List.mem_append.mp hp with hp | hp
      · exact h p hp
      · exact hbefore p hp
  | cons v vs =>
    obtain ⟨before, q, after, rfl, hbefore, hv⟩ := h
    exact ⟨before, q, after ++ qs', by simp, hbefore, hv⟩

/-- One question, which is decided by a test. -/
theorem reports_ite {P : Prop} [Decidable P] (hyes : P → q.Holds t)
    (hno : ¬P → t.Denies xs q v) : t.Reports xs [q] (if P then [] else [v]) := by
  by_cases h : P
  · rw [if_pos h]
    intro p hp
    rw [List.mem_singleton.mp hp]
    exact hyes h
  · rw [if_neg h]
    exact ⟨[], q, [], rfl, fun _ hp => absurd hp List.not_mem_nil, hno h⟩

/-- Where nothing is wrong below a node, its black height is that of all ways down. -/
theorem blacks_of_clean {way : List NodeId} (hs : s.Drawn t)
    (hclean : s.innerViolations t.parent = []) (hway : t.Descends s.top way) :
    t.blacks way = s.blackHeight := by
  have htop : ∀ n, s.top = some n → t.parent n = s.top.bind t.parent := by
    intro n hn
    rw [hn]
    rfl
  obtain ⟨-, k, hbal⟩ := (innerViolations_eq_nil_iff htop).mp hclean
  rw [hbal.height.blackHeight_eq]
  exact hbal.height.eq_of_mem_pathWeights ((mem_pathWeights_iff hs).mpr ⟨way, hway, rfl⟩)

theorem reports_edge {c : Color} {n : NodeId} {d : Side} (hn : n ∈ xs) (hcolor : t.color n = c)
    (hchild : t.child n d = s.top) (hs : s.Drawn t) :
    t.Reports xs (s.edgeQuestions n) (s.edgeViolations t.parent c n) := by
  cases s with
  | leaf => exact fun _ hq => absurd hq List.not_mem_nil
  | node c' l m r =>
    obtain ⟨⟨hm, -⟩, -⟩ := hs
    have hparent : t.Reports xs [.pointsBack n m]
        (if t.parent m = some n then [] else [.brokenParent n m]) :=
      reports_ite id (.brokenParent hn hchild)
    refine hparent.append fun _ => ?_
    rw [← ite_not, ← hcolor, ← hm]
    exact reports_ite id fun hred => .redRed hn hchild (not_not.mp hred)

/-- At an uneven node, the numbers are those of the two sides, since nothing is wrong there. -/
theorem reports_even {c : Color} {l r : Shape} {n : NodeId} (hn : n ∈ xs)
    (hs : (node c l n r).Drawn t) (hl : l.innerViolations t.parent = [])
    (hr : r.innerViolations t.parent = []) :
    t.Reports xs [.even n] (if l.blackHeight = r.blackHeight then []
      else [.blackHeight n l.blackHeight r.blackHeight]) := by
  obtain ⟨⟨hcolor, hleft, hright⟩, hldrawn, hrdrawn⟩ := id hs
  have hlways : ∀ way, t.Descends l.top way → t.blacks way = l.blackHeight :=
    fun _ => blacks_of_clean hldrawn hl
  have hrways : ∀ way, t.Descends r.top way → t.blacks way = r.blackHeight :=
    fun _ => blacks_of_clean hrdrawn hr
  refine reports_ite (fun heven => ?_) fun hne => ?_
  · have hways : ∀ way, t.Descends (some n) way → t.blacks way = r.blackHeight + c.weight := by
      intro way hway
      obtain ⟨rest, rfl, hrest | hrest⟩ := (descends_node_iff hs).mp hway
      · rw [blacks_cons hcolor, hlways rest hrest, heven]
      · rw [blacks_cons hcolor, hrways rest hrest]
    exact fun way way' hway hway' => (hways way hway).trans (hways way' hway').symm
  · exact .uneven hn (hleft ▸ hlways) (hright ▸ hrways) hne

theorem reports_inner (hs : s.Drawn t) (hxs : ∀ n ∈ s.toList, n ∈ xs) :
    t.Reports xs s.innerQuestions (s.innerViolations t.parent) := by
  induction s with
  | leaf => exact fun _ hq => absurd hq List.not_mem_nil
  | node c l n r ihl ihr =>
    obtain ⟨⟨hcolor, hleft, hright⟩, hl, hr⟩ := id hs
    simp only [Shape.toList, List.forall_mem_append, List.forall_mem_cons] at hxs
    obtain ⟨hlxs, hn, hrxs⟩ := hxs
    have hledge := reports_edge hn hcolor hleft hl
    have hredge := reports_edge hn hcolor hright hr
    refine (((hledge.append fun _ => ihl hl hlxs).append fun _ => hredge).append
      fun _ => ihr hr hrxs).append fun hclean => ?_
    simp only [List.append_eq_nil_iff] at hclean
    exact reports_even hn hs hclean.1.1.2 hclean.2

/-- The violations of a shape report on its questions. -/
theorem Outlines.reports (h : t.Outlines s) :
    t.Reports s.toList s.questions (s.violations t.parent) := by
  cases s with
  | leaf => exact fun _ hq => absurd hq List.not_mem_nil
  | node c l n r =>
    obtain ⟨⟨hcolor, -⟩, -⟩ := id h.drawn
    refine Reports.append (Reports.append ?_ fun _ => ?_) fun _ =>
      reports_inner h.drawn fun _ => id
    · rw [← ite_not]
      refine reports_ite (fun hblack => ?_) fun hred => ?_
      · cases c with
        | red => exact absurd rfl hblack
        | black => exact hcolor
      · exact .redTop h.top (hcolor.trans (not_not.mp hred))
    · rw [← ite_not]
      refine reports_ite (fun hnone => ?_) fun hsome => ?_
      · exact Option.not_isSome_iff_eq_none.mp hnone
      · exact .topHasParent h.top (by simpa [Option.isSome_iff_ne_none] using hsome)

/-! ## One answer -/

/-- Below a node of a tree there are ways down. -/
theorem exists_descends_child {n : NodeId} (hs : s.Drawn t) (hn : n ∈ s.toList) (d : Side) :
    ∃ way, t.Descends (t.child n d) way := by
  induction s with
  | leaf => cases hn
  | node c l m r ihl ihr =>
    obtain ⟨⟨-, hleft, hright⟩, hl, hr⟩ := hs
    rw [Shape.toList, List.mem_append, List.mem_cons] at hn
    rcases hn with hn | rfl | hn
    · exact ihl hl hn
    · cases d with
      | left =>
        obtain ⟨way, hway, -⟩ := exists_descends_height hl
        exact ⟨way, hleft ▸ hway⟩
      | right =>
        obtain ⟨way, hway, -⟩ := exists_descends_height hr
        exact ⟨way, hright ▸ hway⟩
    · exact ihr hr hn

/-- A question that is denied does not hold. -/
theorem Denies.not_holds (h : t.Denies s.toList q v) (hs : s.Drawn t) : ¬q.Holds t := by
  cases h with
  | redTop _ hred =>
    intro hblack
    rw [Question.Holds, hred] at hblack
    cases hblack
  | topHasParent _ hparent => exact hparent
  | brokenParent _ _ hparent => exact hparent
  | redRed _ _ hred => exact fun h => h hred
  | @uneven n left right hn hleft hright hne =>
    intro heven
    obtain ⟨wayl, hwayl⟩ := exists_descends_child hs hn .left
    obtain ⟨wayr, hwayr⟩ := exists_descends_child hs hn .right
    have hboth := heven _ _ (.down .left hwayl) (.down .right hwayr)
    rw [blacks_cons rfl, blacks_cons rfl, hleft wayl hwayl, hright wayr hwayr] at hboth
    exact hne (Nat.add_right_cancel hboth)

/-- A question is denied in one way. -/
theorem Denies.unique {w : Violation} (h : t.Denies s.toList q v) (h' : t.Denies s.toList q w)
    (hs : s.Drawn t) : v = w := by
  cases h with
  | @uneven n left right hn hleft hright _ =>
    cases h' with
    | uneven _ hleft' hright' _ =>
      obtain ⟨wayl, hwayl⟩ := exists_descends_child hs hn .left
      obtain ⟨wayr, hwayr⟩ := exists_descends_child hs hn .right
      rw [← hleft wayl hwayl, ← hright wayr hwayr, hleft' wayl hwayl, hright' wayr hwayr]
  | _ => cases h'; rfl

/-- A list has one first element that fails a test. -/
theorem eq_of_append_cons {α : Type} {P : α → Prop} {before before' after after' : List α}
    {a a' : α} (heq : before ++ a :: after = before' ++ a' :: after')
    (hbefore : ∀ b ∈ before, P b) (ha : ¬P a) (hbefore' : ∀ b ∈ before', P b) (ha' : ¬P a') :
    a = a' := by
  induction before generalizing before' with
  | nil =>
    cases before' with
    | nil => exact (List.cons.inj heq).1
    | cons b before' =>
      obtain ⟨rfl, -⟩ := List.cons.inj heq
      exact absurd (hbefore' a List.mem_cons_self) ha
  | cons b before ih =>
    cases before' with
    | nil =>
      obtain ⟨rfl, -⟩ := List.cons.inj heq
      exact absurd (hbefore b List.mem_cons_self) ha'
    | cons b' before' =>
      exact ih (List.cons.inj heq).2 (fun c hc => hbefore c (List.mem_cons_of_mem _ hc))
        fun c hc => hbefore' c (List.mem_cons_of_mem _ hc)

/-- Whatever the colours and the parent links of a tree are, the check answers with the first
of its violations.  This one is really there, at the nodes that it names and with the black
heights that it names; and everything that is asked before it is in order. -/
theorem validate_first_violation (h : t.Outlines s) (v : Violation) :
    (t.validate = .error v ↔ (s.violations t.parent).head? = some v) ∧
      (t.validate = .error v ↔ ∃ before q after, s.questions = before ++ q :: after ∧
        (∀ p ∈ before, p.Holds t) ∧ t.Denies s.toList q v) := by
  have hreports := h.reports
  rw [h.validate]
  cases hvs : s.violations t.parent with
  | nil =>
    rw [hvs] at hreports
    refine ⟨by simp [verdict], by simp [verdict], ?_⟩
    rintro ⟨before, q, after, hqs, -, hv⟩
    exact absurd (hreports q (by simp [hqs])) (hv.not_holds h.drawn)
  | cons w ws =>
    rw [hvs] at hreports
    refine ⟨by simp [verdict], ?_, ?_⟩
    · intro hw
      cases hw
      exact hreports
    · rintro ⟨before, q, after, hqs, hbefore, hv⟩
      obtain ⟨before', q', after', hqs', hbefore', hw⟩ := hreports
      obtain rfl : q = q' := eq_of_append_cons (hqs.symm.trans hqs') hbefore
        (hv.not_holds h.drawn) hbefore' (hw.not_holds h.drawn)
      rw [verdict, hv.unique hw h.drawn]

/-- An uneven node on the left side comes before two reds in a row and a lost parent link on
the right side. -/
theorem validate_first_violation_of_three :
    let s : Shape := .node .black (.node .black (.node .black .leaf 1 .leaf) 3 .leaf) 5
      (.node .red .leaf 8 (.node .red .leaf 9 .leaf))
    let t := (build {} s).setParent 8 none
    let v : Violation := .blackHeight 3 1 0
    t.Outlines s ∧ (t.validate = .error v ↔ (s.violations t.parent).head? = some v) ∧
      (t.validate = .error v ↔ ∃ before q after, s.questions = before ++ q :: after ∧
        (∀ p ∈ before, p.Holds t) ∧ t.Denies s.toList q v) ∧ t.validate = .error v := by
  intro s t v
  have h : t.Outlines s := ⟨rfl, by decide, by decide⟩
  have hfirst := validate_first_violation h v
  exact ⟨h, hfirst.1, hfirst.2, by decide⟩

end Tree

end RedBlack
