import RedBlack.Proofs.Tree.Trail
import RedBlack.Tree.Descent

/-!
# Looking up by comparison

A search goes down as the answers of a comparison tell it, and stops at the first node that
answers `eq`.  Nodes that answer `eq` can lie on both sides of one another, and yet none of
them is missed: where the answers are in order, a node that the search passes has all nodes
that answer `eq` on the side it turns to.

* `Shape.lookup` is the search in a shape, and `Spells.find_eq` says that the tree takes the
  same way.
* `Shape.Sorts` says that the answers are in order.  `lookup_eq_some` and `Sorts.exists_lookup`
  are two halves: what is found answers `eq`, and something is found when some node does.
* `AtOrAbove` is a node and its ancestors, and `Spells.findsTopmost` adds that what is found is
  above all other nodes that answer `eq`.
-/

namespace RedBlack

namespace Shape

variable {s : Shape} {order : NodeId → Ordering} {n : NodeId}

/-! ## The search in a shape -/

/-- The first node that answers `eq` on the way down that the answers lead. -/
def lookup (order : NodeId → Ordering) : Shape → Option NodeId
  | leaf => none
  | node _ l n r =>
    match order n with
    | .lt => l.lookup order
    | .gt => r.lookup order
    | .eq => some n

theorem lookup_eq_some (h : s.lookup order = some n) : n ∈ s.toList ∧ order n = .eq := by
  induction s with
  | leaf => cases h
  | node c l m r ihl ihr =>
    rw [lookup] at h
    rw [toList, List.mem_append, List.mem_cons]
    split at h
    · obtain ⟨hn, heq⟩ := ihl h
      exact ⟨.inl hn, heq⟩
    · obtain ⟨hn, heq⟩ := ihr h
      exact ⟨.inr (.inr hn), heq⟩
    · next heq =>
      cases h
      exact ⟨.inr (.inl rfl), heq⟩

/-- Nodes that answer `gt` come first and nodes that answer `lt` come last: a node after one
that answers `lt` does so too, and a node before one that answers `gt`. -/
def Sorts (order : NodeId → Ordering) (xs : List NodeId) : Prop :=
  xs.Pairwise fun m k => (order m = .lt → order k = .lt) ∧ (order k = .gt → order m = .gt)

/-- Answers that come in three blocks are in order. -/
theorem sorts_of_blocks {before equal after : List NodeId} (hbefore : ∀ m ∈ before, order m = .gt)
    (hequal : ∀ m ∈ equal, order m = .eq) (hafter : ∀ m ∈ after, order m = .lt) :
    Sorts order (before ++ equal ++ after) := by
  rw [Sorts, List.append_assoc, List.pairwise_append, List.pairwise_append]
  refine ⟨?_, ⟨?_, ?_, fun m hm k hk => ?_⟩, fun m hm k _ => ?_⟩
  · exact List.pairwise_of_forall_mem_list fun m hm k hk => by simp [hbefore m hm]
  · exact List.pairwise_of_forall_mem_list fun m hm k hk => by simp [hequal m hm, hequal k hk]
  · exact List.pairwise_of_forall_mem_list fun m hm k hk => by simp [hafter k hk]
  · simp [hafter k hk]
  · simp [hbefore m hm]

/-- A node that answers `lt` has all nodes that answer `eq` on its left side. -/
theorem Sorts.mem_left {c : Color} {l r : Shape} {k : NodeId}
    (h : Sorts order (node c l k r).toList) (hk : order k = .lt)
    (hn : n ∈ (node c l k r).toList) (heq : order n = .eq) : n ∈ l.toList := by
  rw [Sorts, toList, List.pairwise_append, List.pairwise_cons] at h
  rw [toList, List.mem_append, List.mem_cons] at hn
  rcases hn with hn | rfl | hn
  · exact hn
  · rw [hk] at heq
    cases heq
  · rw [(h.2.1.1 n hn).1 hk] at heq
    cases heq

/-- A node that answers `gt` has all nodes that answer `eq` on its right side. -/
theorem Sorts.mem_right {c : Color} {l r : Shape} {k : NodeId}
    (h : Sorts order (node c l k r).toList) (hk : order k = .gt)
    (hn : n ∈ (node c l k r).toList) (heq : order n = .eq) : n ∈ r.toList := by
  rw [Sorts, toList, List.pairwise_append, List.pairwise_cons] at h
  rw [toList, List.mem_append, List.mem_cons] at hn
  rcases hn with hn | rfl | hn
  · rw [(h.2.2 n hn k List.mem_cons_self).2 hk] at heq
    cases heq
  · rw [hk] at heq
    cases heq
  · exact hn

/-- The answers are in order on both sides of a node. -/
theorem Sorts.sides {c : Color} {l r : Shape} {k : NodeId}
    (h : Sorts order (node c l k r).toList) : Sorts order l.toList ∧ Sorts order r.toList := by
  rw [Sorts, toList, List.pairwise_append, List.pairwise_cons] at h
  exact ⟨h.1, h.2.1.2⟩

/-- A search in a shape that is in order finds a node when some node answers `eq`. -/
theorem Sorts.exists_lookup (h : Sorts order s.toList) (hn : n ∈ s.toList)
    (heq : order n = .eq) : ∃ m, s.lookup order = some m := by
  induction s with
  | leaf => cases hn
  | node c l k r ihl ihr =>
    rw [lookup]
    cases hk : order k with
    | eq => exact ⟨k, rfl⟩
    | lt => exact ihl h.sides.1 (h.mem_left hk hn heq)
    | gt => exact ihr h.sides.2 (h.mem_right hk hn heq)

end Shape

namespace Tree

open Shape

variable {t : Tree} {s : Shape} {order : NodeId → Ordering} {n : NodeId}

/-! ## The search along the links -/

theorem descend_of_lt (h : order n = .lt) :
    find.descend t order n = .ok ((t.child n .left).elim (.done none) .again) := by
  cases hc : t.child n .left <;> simp [find.descend, h, hc]

theorem descend_of_gt (h : order n = .gt) :
    find.descend t order n = .ok ((t.child n .right).elim (.done none) .again) := by
  cases hc : t.child n .right <;> simp [find.descend, h, hc]

theorem elim_eq_again_iff {β : Type} {o : Option NodeId} {b : β} {m : NodeId} :
    o.elim (.done b) .again = Round.again m ↔ o = some m := by
  cases o <;> simp

theorem goesDown_find (t : Tree) (order : NodeId → Ordering) :
    t.GoesDown (find.descend t order) := by
  intro n m h
  cases hn : order n with
  | lt =>
    rw [descend_of_lt hn] at h
    exact ⟨.left, elim_eq_again_iff.mp (Except.ok.inj h)⟩
  | gt =>
    rw [descend_of_gt hn] at h
    exact ⟨.right, elim_eq_again_iff.mp (Except.ok.inj h)⟩
  | eq =>
    rw [find.descend, hn] at h
    cases h

/-- One step down into slot `d`, after a node that does not answer `eq`. -/
theorem visits_find_down {d : Side} {x : Shape} (hchild : t.child n d = x.top)
    (hturn : find.descend t order n = .ok ((t.child n d).elim (.done none) .again))
    (hx : ∀ c, x.top = some c → ∃ xs, Visits (find.descend t order) c xs (x.lookup order)) :
    ∃ xs, Visits (find.descend t order) n xs (x.lookup order) := by
  rw [hchild] at hturn
  cases hc : x.top with
  | none =>
    rw [hc] at hturn
    rw [top_eq_none_iff.mp hc]
    exact ⟨[n], .done hturn⟩
  | some c =>
    rw [hc] at hturn
    obtain ⟨xs, hvisits⟩ := hx c hc
    exact ⟨n :: xs, .again hturn hvisits⟩

theorem visits_find {q : Option NodeId} (hs : s.Hangs t.store q) (hn : s.top = some n) :
    ∃ xs, Visits (find.descend t order) n xs (s.lookup order) := by
  induction s generalizing q n with
  | leaf => cases hn
  | node c l m r ihl ihr =>
    cases hn
    obtain ⟨⟨-, -, hleft, hright⟩, hl, hr⟩ := (hangs_branch (d := .left)).mp hs
    rw [lookup]
    cases hm : order m with
    | lt => exact visits_find_down hleft (descend_of_lt hm) fun _ => ihl hl
    | gt => exact visits_find_down hright (descend_of_gt hm) fun _ => ihr hr
    | eq => exact ⟨[m], .done (by rw [find.descend, hm])⟩

/-- A search along the links finds what a search in the shape does. -/
theorem Spells.find_eq (h : t.Spells s) (order : NodeId → Ordering) :
    t.find order = .ok (s.lookup order) := by
  rw [find, h.top]
  cases hn : s.top with
  | none =>
    rw [top_eq_none_iff.mp hn]
    rfl
  | some n =>
    obtain ⟨xs, hvisits⟩ := visits_find h.hangs hn
    exact (h.search_eq (t.goesDown_find order) hn hvisits).1

/-! ## The topmost of the nodes that are sought -/

/-- The node `n` is the given one or an ancestor of it. -/
inductive AtOrAbove (t : Tree) (n : NodeId) : NodeId → Prop where
  | self : AtOrAbove t n n
  | step {m p : NodeId} (h : t.parent m = some p) (hp : AtOrAbove t n p) : AtOrAbove t n m

theorem AtOrAbove.trans {m k : NodeId} (h : t.AtOrAbove n m) (h' : t.AtOrAbove m k) :
    t.AtOrAbove n k := by
  induction h' with
  | self => exact h
  | step hparent _ ih => exact .step hparent ih

/-- The top of what hangs somewhere is above all of it. -/
theorem atOrAbove_of_hangs {q : Option NodeId} {m : NodeId} (hs : s.Hangs t.store q)
    (hn : s.top = some n) (hm : m ∈ s.toList) : t.AtOrAbove n m := by
  induction s generalizing q n with
  | leaf => cases hn
  | node c l k r ihl ihr =>
    cases hn
    obtain ⟨-, hl, hr⟩ := hs
    -- A side that is not empty has a top, and this one hangs from the node.
    have hside : ∀ x : Shape, x.Hangs t.store (some k) → m ∈ x.toList →
        (∀ c, x.top = some c → t.AtOrAbove c m) → t.AtOrAbove k m := by
      intro x hx hmx hbelow
      cases hc : x.top with
      | none =>
        rw [top_eq_none_iff.mp hc] at hmx
        cases hmx
      | some c => exact (AtOrAbove.step (parent_of_hangs hx hc) .self).trans (hbelow c hc)
    rw [Shape.toList, List.mem_append, List.mem_cons] at hm
    rcases hm with hm | rfl | hm
    · exact hside l hl hm fun c hc => ihl hl hc hm
    · exact .self
    · exact hside r hr hm fun c hc => ihr hr hc hm

/-- What a search finds is above all nodes that answer `eq`. -/
theorem atOrAbove_of_lookup {q : Option NodeId} {m : NodeId} (hs : s.Hangs t.store q)
    (h : Sorts order s.toList) (hn : s.lookup order = some n) (hm : m ∈ s.toList)
    (heq : order m = .eq) : t.AtOrAbove n m := by
  induction s generalizing q with
  | leaf => cases hm
  | node c l k r ihl ihr =>
    rw [lookup] at hn
    cases hk : order k with
    | lt =>
      rw [hk] at hn
      exact ihl hs.2.1 h.sides.1 hn (h.mem_left hk hm heq)
    | gt =>
      rw [hk] at hn
      exact ihr hs.2.2 h.sides.2 hn (h.mem_right hk hm heq)
    | eq =>
      rw [hk] at hn
      exact atOrAbove_of_hangs hs hn hm

/-- Among the nodes `xs`, a search finds one with the property `P` when there is one, and this
one is above all others. -/
structure FindsTopmost (t : Tree) (xs : List NodeId) (P : NodeId → Prop)
    (found : Option NodeId) : Prop where
  isSome_iff : found.isSome = true ↔ ∃ m ∈ xs, P m
  of_eq_some : ∀ n, found = some n → n ∈ xs ∧ P n ∧ ∀ m ∈ xs, P m → t.AtOrAbove n m

theorem Spells.findsTopmost (h : t.Spells s) (hsorts : Sorts order s.toList) :
    t.FindsTopmost s.toList (fun m => order m = .eq) (s.lookup order) where
  isSome_iff := by
    rw [Option.isSome_iff_exists]
    constructor
    · rintro ⟨n, hn⟩
      exact ⟨n, lookup_eq_some hn⟩
    · rintro ⟨m, hm, heq⟩
      exact hsorts.exists_lookup hm heq
  of_eq_some n hn :=
    ⟨(lookup_eq_some hn).1, (lookup_eq_some hn).2,
      fun _ => atOrAbove_of_lookup h.hangs hsorts hn⟩

end Tree

end RedBlack
