import RedBlack.Forest.Status
import RedBlack.Proofs.Shape.Order
import RedBlack.Proofs.Shape.Removal
import RedBlack.Proofs.Tree.Around

/-!
# Walks in order

A walk knows links only, and the order of a tree is a matter of the whole shape.  The
two meet at the place of a node: down from the node, `extreme` finds the end of a
subtree, and up from it, `ascend` finds the first frame that is open on the other side.

* `Walks` says of four questions that they lead along a list.
* `Spells.outermost_eq` and `Spells.neighbour_eq` answer both directions at once.
* `Walks.collect` gathers a whole walk, and `Walks.next_iff_prev` is the way back.
* `walks_in_order` is the result, for both interfaces.  Colours, balance and keys play
  no part in it.
-/

namespace RedBlack

/-! ## Walks along a list -/

/-- Four questions that lead along a list: both of its ends, and the neighbours of each
of its elements. -/
structure Walks (xs : List NodeId) (first last : Except Fault (Option NodeId))
    (next prev : NodeId → Except Fault (Option NodeId)) : Prop where
  first : first = .ok xs.head?
  last : last = .ok xs.getLast?
  next : ∀ l n r, xs = l ++ n :: r → next n = .ok r.head?
  prev : ∀ l n r, xs = l ++ n :: r → prev n = .ok l.getLast?

/-- Where each step answers the element that follows, all elements are met. -/
theorem collect_eq {next : NodeId → Except Fault (Option NodeId)} {xs : List NodeId}
    {rounds : Nat} (hnext : ∀ l n r, xs = l ++ n :: r → next n = .ok r.head?)
    (hr : xs.length ≤ rounds) : collect next rounds xs.head? = .ok xs := by
  induction xs generalizing rounds with
  | nil => cases rounds <;> rfl
  | cons n xs ih =>
    rw [List.length_cons] at hr
    obtain ⟨rounds, rfl⟩ : ∃ k, rounds = k + 1 := ⟨rounds - 1, by omega⟩
    have hn : next n = .ok xs.head? := hnext [] n xs rfl
    have hrest : collect next rounds xs.head? = .ok xs := by
      apply ih
      · intro l m r hxs
        exact hnext (n :: l) m r (by rw [hxs]; rfl)
      · omega
    simp only [List.head?_cons, collect, hn]
    show (do let rest ← collect next rounds xs.head?; return n :: rest) = _
    rw [hrest]
    rfl

namespace Walks

variable {xs : List NodeId} {first last : Except Fault (Option NodeId)}
  {next prev : NodeId → Except Fault (Option NodeId)}

/-- The same walk, backwards. -/
theorem reverse (h : Walks xs first last next prev) :
    Walks xs.reverse last first prev next where
  first := by rw [h.last, List.head?_reverse]
  last := by rw [h.first, List.getLast?_reverse]
  next := by
    intro l n r hxs
    have hrev : xs = r.reverse ++ n :: l.reverse := by
      rw [← List.reverse_reverse xs, hxs]
      simp
    rw [h.prev _ _ _ hrev, List.getLast?_reverse]
  prev := by
    intro l n r hxs
    have hrev : xs = r.reverse ++ n :: l.reverse := by
      rw [← List.reverse_reverse xs, hxs]
      simp
    rw [h.next _ _ _ hrev, List.head?_reverse]

/-- The walk meets the elements one after the other, and ends. -/
theorem collect (h : Walks xs first last next prev) {rounds : Nat} (hr : xs.length ≤ rounds) :
    (do RedBlack.collect next rounds (← first)) = .ok xs := by
  rw [h.first]
  exact collect_eq h.next hr

/-- A step forward and a step back undo each other. -/
theorem next_iff_prev (h : Walks xs first last next prev) {m n : NodeId} (hm : m ∈ xs)
    (hn : n ∈ xs) : next m = .ok (some n) ↔ prev n = .ok (some m) := by
  constructor
  · intro hnext
    obtain ⟨l, r, hxs⟩ := List.append_of_mem hm
    rw [h.next _ _ _ hxs] at hnext
    obtain ⟨r', rfl⟩ := List.head?_eq_some_iff.mp (Except.ok.inj hnext)
    have hprev := h.prev (l ++ [m]) n r' (by rw [hxs]; simp)
    rw [hprev]
    simp
  · intro hprev
    obtain ⟨l, r, hxs⟩ := List.append_of_mem hn
    rw [h.prev _ _ _ hxs] at hprev
    obtain ⟨l', rfl⟩ := List.getLast?_eq_some_iff.mp (Except.ok.inj hprev)
    have hnext := h.next l' m (n :: r) (by rw [hxs]; simp)
    rw [hnext]
    rfl

end Walks

namespace Tree

open Shape

variable {t : Tree}

/-! ## Down to the end of a subtree -/

/-- One step down towards side `d`: without a child there, the node is the last one. -/
theorem loop_extreme_branch {d : Side} {c : Color} {n : NodeId} {x y : Shape} {rounds : Nat}
    (hchild : t.child n d = x.top)
    (hx : ∀ k, x.top = some k →
      ∃ m, loop (extreme.advance t d) rounds k = .ok m ∧ (x.toward d).getLast? = some m) :
    ∃ m, loop (extreme.advance t d) (rounds + 1) n = .ok m ∧
      ((branch d c n x y).toward d).getLast? = some m := by
  rw [toward_branch, List.getLast?_append, List.getLast?_cons]
  cases hk : x.top with
  | none =>
    have hstep : extreme.advance t d n = .ok (.done n) := by
      simp only [extreme.advance, hchild, hk]
    refine ⟨n, loop_of_done hstep rounds, ?_⟩
    rw [top_eq_none_iff.mp hk, toward_leaf]
    rfl
  | some k =>
    have hstep : extreme.advance t d n = .ok (.again k) := by
      simp only [extreme.advance, hchild, hk]
    obtain ⟨m, hloop, hlast⟩ := hx k hk
    refine ⟨m, ?_, ?_⟩
    · rw [loop_of_again hstep, hloop]
    · rw [hlast]
      rfl

/-- The way down along the slots on side `d` ends at the last node towards that side. -/
theorem loop_extreme {s : Shape} {q : Option NodeId} {n : NodeId} {rounds : Nat} (d : Side)
    (hs : s.Hangs t.store q) (hn : s.top = some n) (hr : s.toList.length ≤ rounds) :
    ∃ m, loop (extreme.advance t d) rounds n = .ok m ∧ (s.toward d).getLast? = some m := by
  induction s generalizing q n rounds with
  | leaf => cases hn
  | node c l k r ihl ihr =>
    cases hn
    obtain ⟨⟨-, -, hleft, hright⟩, hl, hr'⟩ := (hangs_branch (d := .left)).mp hs
    rw [Shape.toList, List.length_append, List.length_cons] at hr
    obtain ⟨rounds, rfl⟩ : ∃ j, rounds = j + 1 := ⟨rounds - 1, by omega⟩
    cases d with
    | left =>
      apply loop_extreme_branch (d := .left) hleft
      intro k hk
      exact ihl hl hk (by omega)
    | right =>
      apply loop_extreme_branch (d := .right) hright
      intro k hk
      exact ihr hr' hk (by omega)

theorem extreme_eq {s : Shape} {q : Option NodeId} {n : NodeId} (d : Side)
    (hs : s.Hangs t.store q) (hn : s.top = some n) (hr : s.toList.length ≤ t.bound) :
    some <$> t.extreme d n = .ok (s.toward d).getLast? := by
  obtain ⟨m, hloop, hlast⟩ := loop_extreme d hs hn hr
  rw [extreme, hloop, hlast]
  rfl

/-- The outermost node of a tree is the last one towards that side. -/
theorem Spells.outermost_eq {s : Shape} (h : t.Spells s) (d : Side) :
    t.outermost d = .ok (s.toward d).getLast? := by
  rw [outermost, h.top]
  cases hn : s.top with
  | none =>
    rw [top_eq_none_iff.mp hn, toward_leaf]
    rfl
  | some n => exact extreme_eq d h.hangs hn h.length_le_bound

/-! ## Up to the closest ancestor on the other side -/

/-- The way up ends at the first node ahead of the place.  The climb goes on exactly below
frames whose open slot is on side `d`. -/
theorem loop_climb {p : Path} {n : NodeId} {d : Side} {rounds : Nat} (h : t.Around p (some n))
    (hparent : t.parent n = p.parent) (hn : n ∉ p.nodes) (hp : p.nodes.Nodup)
    (hr : p.length < rounds) :
    loop (ascend.climb t d) rounds n = .ok (p.ahead d).head? := by
  induction p generalizing n rounds with
  | nil =>
    obtain ⟨rounds, rfl⟩ : ∃ j, rounds = j + 1 := ⟨rounds - 1, by omega⟩
    have hstep : ascend.climb t d n = .ok (.done none) := by
      simp only [ascend.climb, hparent, Path.parent]
    rw [loop_of_done hstep, Path.ahead_nil]
    rfl
  | cons f up ih =>
    obtain ⟨rounds, rfl⟩ : ∃ j, rounds = j + 1 := ⟨rounds - 1, by omega⟩
    obtain ⟨⟨hfp, -, hhole, hother⟩, -, hup⟩ := h
    rw [Path.nodes, List.nodup_cons, List.nodup_append] at hp
    rw [Path.mem_nodes_cons, not_or, not_or] at hn
    rw [List.length_cons] at hr
    by_cases hside : f.side = d
    · have hchild : t.child f.id d = some n := by rw [← hside]; exact hhole
      have hstep : ascend.climb t d n = .ok (.again f.id) := by
        simp only [ascend.climb, hparent, Path.parent, hchild, if_true]
      rw [loop_of_again hstep, Path.ahead_cons_of_eq hside]
      apply ih hup hfp
      · intro hf
        exact hp.1 (List.mem_append_right _ hf)
      · exact hp.2.2.1
      · omega
    · have hchild : t.child f.id d = f.other.top := by
        have hd : d = f.side.opposite := Side.eq_opposite_of_ne (Ne.symm hside)
        rw [hd]
        exact hother
      have hne : f.other.top ≠ some n := top_ne_of_notMem hn.2.1
      have hstep : ascend.climb t d n = .ok (.done (some f.id)) := by
        simp only [ascend.climb, hparent, Path.parent, hchild, if_neg hne]
      rw [loop_of_done hstep, Path.ahead_cons_of_ne hside]
      rfl

/-! ## Neighbours -/

/-- The neighbour of the node in a place: the closest node of its subtree on that side,
or else the closest one ahead of the place. -/
theorem Spells.neighbour_fill {p : Path} {d : Side} {c : Color} {n : NodeId} {x y : Shape}
    (h : t.Spells (p.fill (branch d c n x y))) :
    t.neighbour d n = .ok (x.toward d ++ p.ahead d).head? := by
  have hbound := h.length_path_le
  obtain ⟨haround, hhangs, hnodup, hp, hdisj⟩ := spells_fill_iff.mp h
  obtain ⟨⟨hparent, -, hchild, -⟩, hx, -⟩ := hangs_branch.mp hhangs
  have hlength : x.toList.length < (branch d c n x y).toList.length := by
    cases d <;> simp only [branch, Shape.toList, List.length_append, List.length_cons] <;> omega
  rw [neighbour, hchild]
  cases hk : x.top with
  | none =>
    have hn : n ∉ p.nodes := hdisj (mem_toList_of_top (top_branch ..))
    rw [top_branch] at haround
    rw [top_eq_none_iff.mp hk, toward_leaf, List.nil_append]
    exact loop_climb haround hparent hn hp (by omega)
  | some k =>
    -- The closest node towards `d` is the last one on the way back from there.
    have hdown : some <$> t.extreme d.opposite k = .ok (x.toward d).head? := by
      rw [extreme_eq d.opposite hx hk (by omega), toward_opposite, List.getLast?_reverse]
    have hne : x.toward d ≠ [] := by
      cases x with
      | leaf => cases hk
      | node c' l m r => cases d <;> simp [Shape.toList]
    rw [List.head?_append_of_ne_nil _ hne]
    exact hdown

/-- The neighbour of a node towards side `d` is the next one in that direction. -/
theorem Spells.neighbour_eq {s : Shape} (h : t.Spells s) {d : Side} {l r : List NodeId}
    {n : NodeId} (hs : s.toward d = l ++ n :: r) : t.neighbour d n = .ok r.head? := by
  have hnodup : (s.toward d).Nodup := by
    cases d with
    | left => exact List.nodup_reverse.mpr h.nodup
    | right => exact h.nodup
  have hmem : n ∈ s.toList := by
    have hn : n ∈ s.toward d := by simp [hs]
    cases d with
    | left => exact List.mem_reverse.mp hn
    | right => exact hn
  obtain ⟨p, c, x, y, -, rfl⟩ := exists_focus? hmem
  rw [← branch_slot d] at h hs hnodup
  rw [h.neighbour_fill]
  -- A node occurs once, so that the two ways to cut the list are one.
  rw [Path.toward_fill, toward_branch, List.append_assoc, List.append_assoc, List.cons_append,
    ← List.append_assoc] at hs hnodup
  rw [List.nodup_middle, List.nodup_cons, List.mem_append, not_or] at hnodup
  obtain ⟨-, -, hr⟩ := (List.append_cons_inj_of_notMem hnodup.1.1 hnodup.1.2).mp hs
  rw [hr]

/-- The links of a tree lead along its nodes in order. -/
theorem Spells.walks {s : Shape} (h : t.Spells s) :
    Walks s.toList t.first t.last t.next t.prev where
  first := by
    show t.outermost .left = _
    rw [h.outermost_eq, toward_left, List.getLast?_reverse]
  last := h.outermost_eq .right
  next := by
    intro l n r hs
    exact h.neighbour_eq (d := .right) hs
  prev := by
    intro l n r hs
    have hback : s.toward .left = r.reverse ++ n :: l.reverse := by
      rw [toward_left, hs]
      simp
    show t.neighbour .left n = _
    rw [h.neighbour_eq hback, List.head?_reverse]

/-- The whole walk, from first to last. -/
theorem Spells.toList_eq {s : Shape} (h : t.Spells s) : t.toList = .ok s.toList :=
  h.walks.collect h.length_le_bound

end Tree

/-! ## Both interfaces -/

namespace Forest

/-- In any tree whose links fit together, whatever its colours, its balance and its keys,
both interfaces lead along the nodes in order, from either end: every walk ends, meets
each node once, and can be taken back step by step. -/
theorem walks_in_order {f : Forest} {r : RootId} {s : Shape} (h : (f.tree r).Spells s) :
    let t := f.tree r
    let xs := s.toList
    Walks xs t.first t.last t.next t.prev ∧
      Walks xs (f.first (some r)) (f.last (some r)) (fun n => f.next (some n))
        (fun n => f.prev (some n)) ∧
      xs.Nodup ∧ t.toList = .ok xs ∧ t.toListReverse = .ok xs.reverse ∧
      f.toList (some r) = .ok xs ∧
      ∀ m ∈ xs, ∀ n ∈ xs, t.next m = .ok (some n) ↔ t.prev n = .ok (some m) := by
  intro t xs
  have hplain : Walks xs t.first t.last t.next t.prev := h.walks
  -- A step from a node reads the records only, not the top.
  have hstatus : Walks xs (f.first (some r)) (f.last (some r)) (fun n => f.next (some n))
      (fun n => f.prev (some n)) := hplain
  have hbound : xs.length ≤ t.bound := h.length_le_bound
  have hback : xs.reverse.length ≤ t.bound := by
    rw [List.length_reverse]
    exact hbound
  refine ⟨hplain, hstatus, h.nodup, hplain.collect hbound, hplain.reverse.collect hback,
    hstatus.collect hbound, ?_⟩
  intro m hm n hn
  exact hplain.next_iff_prev hm hn

/-- A leaning tree with a red node at the top and below it, and with no order of keys. -/
theorem walks_in_order_of_leaning :
    let s : Shape := .node .red
      (.node .red .leaf 7 (.node .black (.node .red .leaf 3 .leaf) 9 .leaf)) 5 .leaf
    let f := ofTree (Tree.build {} s)
    (f.tree 0).Spells s ∧
      Walks [7, 3, 9, 5] (f.tree 0).first (f.tree 0).last (f.tree 0).next (f.tree 0).prev ∧
      Walks [7, 3, 9, 5] (f.first (some 0)) (f.last (some 0)) (fun n => f.next (some n))
        (fun n => f.prev (some n)) ∧
      [7, 3, 9, 5].Nodup ∧ (f.tree 0).toList = .ok [7, 3, 9, 5] ∧
      (f.tree 0).toListReverse = .ok [5, 9, 3, 7] ∧ f.toList (some 0) = .ok [7, 3, 9, 5] ∧
      ∀ m ∈ [7, 3, 9, 5], ∀ n ∈ [7, 3, 9, 5],
        (f.tree 0).next m = .ok (some n) ↔ (f.tree 0).prev n = .ok (some m) := by
  intro s f
  have h : (f.tree 0).Spells s := Tree.spells_build {} (by decide)
  exact ⟨h, walks_in_order h⟩

end Forest

end RedBlack
