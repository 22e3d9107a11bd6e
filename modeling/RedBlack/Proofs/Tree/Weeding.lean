import RedBlack.Proofs.Tree.Calls
import RedBlack.Proofs.Tree.Walk

/-!
# Removing nodes on a walk

An owner who takes nodes out of a tree while walking through it has to know the next node
before the current one goes.  The removal may put that next node somewhere else in the tree,
and the node after it is then asked for in a tree that has changed.  But what remains stands
in the order that it had, and the order is all that a step depends on.

* `Tree.weed` is the loop.  A `Stop` is a node that it comes to, with the tree that the step
  there leaves.
* `HoldsToward d` is the view of a tree as the list of its nodes towards side `d`, so that both
  directions are one proof.
* `Weeds` says what the loop comes to, and `HoldsToward.weedFrom` is the induction over the
  nodes that remain.
-/

namespace RedBlack

/-- A node that a walk comes to, and the tree that the step there leaves. -/
structure Stop where
  node : NodeId
  tree : Tree
  deriving Repr

namespace Tree

open Shape

/-! ## The loop -/

/-- Goes on from a node.  At each node `next` is asked first, and then the node is removed if it
is `selected`. -/
def weedFrom (next : Tree → NodeId → Except Fault (Option NodeId)) (selected : NodeId → Bool) :
    (rounds : Nat) → Tree → Option NodeId → Outcome Tree (List Stop)
  | _, t, none => .ok [] t
  | 0, t, some _ => .error (.lost .endless) t
  | rounds + 1, t, some n =>
    (Outcome.ask t (next t n)).andThen fun following t =>
      (if selected n then t.remove (some n) else .ok () t).andThen fun () t =>
        (weedFrom next selected rounds t following).andThen fun stops u =>
          .ok (⟨n, t⟩ :: stops) u

/-- Walks through a tree and removes the nodes that are `selected`. -/
def weed (first : Tree → Except Fault (Option NodeId))
    (next : Tree → NodeId → Except Fault (Option NodeId)) (selected : NodeId → Bool) (t : Tree) :
    Outcome Tree (List Stop) :=
  (Outcome.ask t (first t)).andThen fun start t => t.weedFrom next selected t.bound start

/-! ## Trees as lists, from either side -/

/-- A red-black tree with the nodes `xs` towards side `d`. -/
def HoldsToward (t : Tree) (d : Side) (xs : List NodeId) : Prop :=
  match d with
  | .left => t.Holds xs.reverse
  | .right => t.Holds xs

variable {t : Tree} {d : Side} {kept l r : List NodeId} {n : NodeId} {selected : NodeId → Bool}

/-- A step towards side `d` leads to the next node on that side. -/
theorem HoldsToward.neighbour (h : t.HoldsToward d (l ++ n :: r)) :
    t.neighbour d n = .ok r.head? := by
  cases d with
  | left =>
    obtain ⟨s, hs, -, hlist⟩ := h
    exact hs.neighbour_eq (d := .left) (List.reverse_eq_iff.mpr hlist)
  | right =>
    obtain ⟨s, hs, -, hlist⟩ := h
    exact hs.neighbour_eq (d := .right) hlist

theorem Holds.remove_append_cons (h : t.Holds (l ++ n :: r)) :
    ∃ t', t.remove (some n) = .ok () t' ∧ t'.Holds (l ++ r) := by
  have hnodup := h.nodup
  rw [List.nodup_middle, List.nodup_cons, List.mem_append, not_or] at hnodup
  obtain ⟨t', hremove, ht', -⟩ := h.remove (List.mem_append_right l List.mem_cons_self)
  rw [List.erase_append_right _ hnodup.1.1, List.erase_cons_head] at ht'
  exact ⟨t', hremove, ht'⟩

/-- A removal takes its node out of the order, seen from either side. -/
theorem HoldsToward.remove (h : t.HoldsToward d (l ++ n :: r)) :
    ∃ t', t.remove (some n) = .ok () t' ∧ t'.HoldsToward d (l ++ r) := by
  cases d with
  | left =>
    have hback : t.Holds (r.reverse ++ n :: l.reverse) := by simpa [HoldsToward] using h
    simpa [HoldsToward] using hback.remove_append_cons
  | right => exact Holds.remove_append_cons h

/-! ## The walk -/

/-- What a walk comes to that goes towards side `d`, has `kept` nodes behind it and `xs` before
it: it stops at each of `xs`, one after the other, and after every step the tree is red-black
and holds what was kept until then and what is still to come. -/
structure Weeds (d : Side) (kept xs : List NodeId) (selected : NodeId → Bool)
    (stops : List Stop) (t' : Tree) : Prop where
  nodes : stops.map Stop.node = xs
  trees : ∀ l stop r, stops = l ++ stop :: r →
    stop.tree.HoldsToward d
      (kept ++ ((l ++ [stop]).map Stop.node).filter (!selected ·) ++ r.map Stop.node)
  last : t'.HoldsToward d (kept ++ xs.filter (!selected ·))

theorem weeds_nil (h : t.HoldsToward d kept) : Weeds d kept [] selected [] t where
  nodes := rfl
  trees l stop r hstops := by simp at hstops
  last := by simpa using h

/-- One step, and then the rest of the walk. -/
theorem Weeds.cons {u t' : Tree} {stops : List Stop}
    (hu : u.HoldsToward d (kept ++ [n].filter (!selected ·) ++ r))
    (h : Weeds d (kept ++ [n].filter (!selected ·)) r selected stops t') :
    Weeds d kept (n :: r) selected (⟨n, u⟩ :: stops) t' where
  nodes := by rw [List.map_cons, h.nodes]
  trees l stop r' hstops := by
    cases l with
    | nil =>
      obtain ⟨rfl, rfl⟩ := List.cons.inj hstops
      rw [h.nodes]
      exact hu
    | cons a l =>
      obtain ⟨rfl, rfl⟩ := List.cons.inj hstops
      have htree := h.trees l stop r' rfl
      rw [List.append_assoc kept, ← List.filter_append] at htree
      exact htree
  last := by
    have hlast := h.last
    rw [List.append_assoc, ← List.filter_append] at hlast
    exact hlast

/-- What a step does to the tree. -/
theorem HoldsToward.weed_step (h : t.HoldsToward d (kept ++ n :: r)) (selected : NodeId → Bool) :
    ∃ u, (if selected n then t.remove (some n) else .ok () t) = .ok () u ∧
      u.HoldsToward d (kept ++ [n].filter (!selected ·) ++ r) := by
  cases hn : selected n with
  | true =>
    obtain ⟨u, hremove, hu⟩ := h.remove
    exact ⟨u, hremove, by simpa [hn] using hu⟩
  | false => exact ⟨t, rfl, by simpa [hn] using h⟩

/-- The induction is on the nodes that remain.  The one that comes next is known before the
current node goes, and the removal leaves it the first of the remaining ones. -/
theorem HoldsToward.weedFrom {rounds : Nat} (h : t.HoldsToward d (kept ++ r))
    (hr : r.length ≤ rounds) (selected : NodeId → Bool) :
    ∃ stops t', t.weedFrom (fun t => t.neighbour d) selected rounds r.head? = .ok stops t' ∧
      Weeds d kept r selected stops t' := by
  induction r generalizing t kept rounds with
  | nil =>
    refine ⟨[], t, ?_, weeds_nil (by simpa using h)⟩
    cases rounds <;> rfl
  | cons n r ih =>
    rw [List.length_cons] at hr
    obtain ⟨rounds, rfl⟩ : ∃ j, rounds = j + 1 := ⟨rounds - 1, by omega⟩
    obtain ⟨u, hstep, hu⟩ := h.weed_step selected
    obtain ⟨stops, t', hrest, hweeds⟩ := ih hu (Nat.le_of_succ_le_succ hr)
    refine ⟨⟨n, u⟩ :: stops, t', ?_, hweeds.cons hu⟩
    rw [List.head?_cons, Tree.weedFrom, h.neighbour, Outcome.ask, Outcome.andThen, hstep]
    simp only [Outcome.andThen, hrest]

/-- Removing nodes on a walk is safe when the next node is asked for first.  In any red-black
tree, whatever is selected, the walk from the first node stops at every node once, in order,
and ends; after every step the tree is red-black, and in the end it holds the nodes that were
not selected, in their order.  The walk from the last node does the same backwards. -/
theorem weed_meets_all {s : Shape} (h : t.Spells s) (hs : s.IsRedBlack)
    (selected : NodeId → Bool) :
    (∃ stops t', t.weed first next selected = .ok stops t' ∧
      Weeds .right [] s.toList selected stops t') ∧
    ∃ stops t', t.weed last prev selected = .ok stops t' ∧
      Weeds .left [] s.toList.reverse selected stops t' := by
  have hholds : t.Holds s.toList := ⟨s, h, hs, rfl⟩
  constructor
  · have hto : t.HoldsToward .right ([] ++ s.toList) := hholds
    obtain ⟨stops, t', hweed, hweeds⟩ := hto.weedFrom h.length_le_bound selected
    refine ⟨stops, t', ?_, hweeds⟩
    rw [weed, h.walks.first]
    exact hweed
  · have hto : t.HoldsToward .left ([] ++ s.toList.reverse) := by
      simpa [HoldsToward] using hholds
    have hbound : s.toList.reverse.length ≤ t.bound := by
      rw [List.length_reverse]
      exact h.length_le_bound
    obtain ⟨stops, t', hweed, hweeds⟩ := hto.weedFrom hbound selected
    refine ⟨stops, t', ?_, hweeds⟩
    rw [weed, h.walks.last, ← List.head?_reverse]
    exact hweed

/-- The top goes with two children, so that the node after it is put in its place just before
the walk comes there, and goes as well. -/
theorem weed_meets_all_of_successor :
    let s : Shape := .node .black (.node .black .leaf 1 .leaf) 5
      (.node .red (.node .black .leaf 7 .leaf) 8
        (.node .black .leaf 9 (.node .red .leaf 2 .leaf)))
    let t := Tree.build {} s
    let selected (n : NodeId) : Bool := n = 5 ∨ n = 7 ∨ n = 2
    t.Spells s ∧ s.IsRedBlack ∧
      (∃ stops t', t.weed first next selected = .ok stops t' ∧
        Weeds .right [] [1, 5, 7, 8, 9, 2] selected stops t') ∧
      ∃ stops t', t.weed last prev selected = .ok stops t' ∧
        Weeds .left [] [2, 9, 8, 7, 5, 1] selected stops t' := by
  intro s t selected
  have h : t.Spells s := spells_build {} (by decide)
  have hs : s.IsRedBlack := by decide
  exact ⟨h, hs, weed_meets_all h hs selected⟩

end Tree

end RedBlack
