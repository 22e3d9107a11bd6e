import RedBlack.Proofs.Tree.Walk
import RedBlack.Tree.Sweep

/-!
# Sweeps from both ends

The two ends of a sweep move through the links of a tree on their own, and the only thing
that stops them is that they stand at the same node.  What holds in between is that they
stand at the two ends of what is left of the order.

* `Sweep.middle` is what is left after some nodes were taken from the front and some from
  the back, and `Spans` says that the ends of a sweep are the ends of a list.
* `pop_eq` is one step, said for both directions at once, and `drain_eq` takes all that is
  left.
* `Call` is what a caller can do with a sweep.  `Call.answer` and `answers` are the answers in
  terms of the order alone, `perform_eq` is one call, and `performAll_eq` any number of them.
* `sweep_from_both_ends` is the result, in every interleaving.
-/

namespace RedBlack

namespace Sweep

open Shape

/-! ## What is left -/

/-- What is left of `xs` after `i` were taken from the front and `j` from the back. -/
def middle (xs : List NodeId) (i j : Nat) : List NodeId :=
  (xs.drop i).take (xs.length - (i + j))

section Middle

variable (xs : List NodeId) (i j : Nat)

@[simp] theorem middle_zero : middle xs 0 0 = xs := by
  simp [middle]

theorem middle_eq_nil {xs : List NodeId} {i j : Nat} (h : xs.length ≤ i + j) :
    middle xs i j = [] := by
  rw [middle, Nat.sub_eq_zero_of_le h, List.take_zero]

theorem length_middle_le : (middle xs i j).length ≤ xs.length := by
  rw [middle, List.length_take, List.length_drop]
  omega

theorem head?_middle :
    (middle xs i j).head? = if i + j < xs.length then xs[i]? else none := by
  rw [middle, List.head?_take, List.head?_drop]
  by_cases h : i + j < xs.length
  · rw [if_pos h, if_neg (by omega)]
  · rw [if_neg h, if_pos (by omega)]

theorem tail_middle : (middle xs i j).tail = middle xs (i + 1) j := by
  have hlength : xs.length - (i + j) - 1 = xs.length - (i + 1 + j) := by omega
  rw [middle, middle, ← List.drop_one, List.drop_take, List.drop_drop, hlength]

/-- From the other side, the two numbers change their roles. -/
theorem reverse_middle : (middle xs i j).reverse = middle xs.reverse j i := by
  by_cases h : i + j ≤ xs.length
  · have hbehind : xs.length - i - (xs.length - (i + j)) = j := by omega
    have hbetween : xs.length - i - j = xs.reverse.length - (j + i) := by
      rw [List.length_reverse]
      omega
    rw [middle, middle, List.reverse_take, List.length_drop, hbehind, List.reverse_drop,
      List.drop_take, hbetween]
  · have hback : xs.reverse.length ≤ j + i := by
      rw [List.length_reverse]
      omega
    rw [middle_eq_nil (by omega), middle_eq_nil hback]
    rfl

theorem exists_append_middle : ∃ l r, xs = l ++ middle xs i j ++ r := by
  refine ⟨xs.take i, (xs.drop i).drop (xs.length - (i + j)), ?_⟩
  rw [middle, List.append_assoc, List.take_append_drop, List.take_append_drop]

end Middle

/-! ## One step, from either end -/

/-- The node at one end. -/
def tip (s : Sweep) : Side → Option NodeId
  | .left => s.front
  | .right => s.back

/-- Moves one end. -/
def move (s : Sweep) (d : Side) (n : Option NodeId) : Sweep :=
  match d with
  | .left => { s with front := n }
  | .right => { s with back := n }

/-- Takes a node from one end. -/
def pop (t : Tree) (d : Side) (s : Sweep) : Except Fault (Option NodeId × Sweep) :=
  match d with
  | .left => s.popFront t
  | .right => s.popBack t

/-- The ends of a sweep are the ends of `ys`, which is read from side `d`. -/
def Spans (s : Sweep) (d : Side) (ys : List NodeId) : Prop :=
  s.tip d = ys.head? ∧ s.tip d.opposite = ys.getLast?

variable {t : Tree} {s : Sweep} {x : Shape} {d : Side} {n : NodeId}

@[simp] theorem tip_move (m : Option NodeId) : (s.move d m).tip d = m := by
  cases d <;> rfl

@[simp] theorem tip_opposite_move (m : Option NodeId) :
    (s.move d m).tip d.opposite = s.tip d.opposite := by
  cases d <;> rfl

theorem Spans.reverse {ys : List NodeId} (h : s.Spans d ys) :
    s.Spans d.opposite ys.reverse := by
  refine ⟨?_, ?_⟩
  · rw [h.2, List.head?_reverse]
  · rw [Side.opposite_opposite, h.1, List.getLast?_reverse]

theorem pop_of_none (h : s.tip d = none) : s.pop t d = .ok (none, s) := by
  cases d <;> simp only [tip] at h <;> simp only [pop, popFront, popBack, h]

/-- The node where the ends meet is the last one. -/
theorem pop_of_meet (h : s.tip d = some n) (hmeet : s.tip d.opposite = some n) :
    s.pop t d = .ok (some n, finished) := by
  cases d <;> simp only [tip, Side.opposite] at h hmeet <;>
    simp only [pop, popFront, popBack, h, hmeet, if_true]

/-- Before that, an end moves on to the neighbour of its node. -/
theorem pop_of_ne {m : Option NodeId} (h : s.tip d = some n) (hne : s.tip d.opposite ≠ some n)
    (hm : t.neighbour d.opposite n = .ok m) : s.pop t d = .ok (some n, s.move d m) := by
  cases d with
  | left =>
    simp only [tip, Side.opposite] at h hne
    have hnext : t.next n = .ok m := hm
    simp only [pop, popFront, h, if_neg hne.symm, hnext]
    rfl
  | right =>
    simp only [tip, Side.opposite] at h hne
    have hprev : t.prev n = .ok m := hm
    simp only [pop, popBack, h, if_neg hne, hprev]
    rfl

/-- Taking a node from an end takes it from what is left. -/
theorem pop_eq (h : t.Spells x) {l ys r : List NodeId}
    (hx : x.toward d.opposite = l ++ ys ++ r) (hs : s.Spans d ys) :
    ∃ s', s.pop t d = .ok (ys.head?, s') ∧ s'.Spans d ys.tail := by
  have hnodup : (x.toward d.opposite).Nodup := nodup_toward h.nodup d.opposite
  obtain ⟨htip, hopposite⟩ := hs
  match ys with
  | [] => exact ⟨s, pop_of_none htip, htip, hopposite⟩
  | [n] => exact ⟨finished, pop_of_meet htip hopposite, by cases d <;> exact ⟨rfl, rfl⟩⟩
  | n :: m :: zs =>
    have hlast : (n :: m :: zs).getLast? = (m :: zs).getLast? := List.getLast?_cons_cons
    have hne : s.tip d.opposite ≠ some n := by
      rw [hopposite, hlast]
      intro hn
      have hmem : n ∈ m :: zs := List.mem_of_getLast? hn
      rw [hx, List.append_assoc, List.nodup_append'] at hnodup
      exact (List.nodup_cons.mp hnodup.2.1).1 (List.mem_append_left r hmem)
    have hnext : t.neighbour d.opposite n = .ok (some m) := by
      refine h.neighbour_eq (l := l) (r := m :: zs ++ r) ?_
      rw [hx, List.append_assoc]
      rfl
    refine ⟨s.move d (some m), pop_of_ne htip hne hnext, tip_move _, ?_⟩
    rw [tip_opposite_move, hopposite, hlast]
    rfl

/-! ## Taking all that is left -/

theorem drain_eq (h : t.Spells x) {l ys r : List NodeId} (hx : x.toList = l ++ ys ++ r)
    (hs : s.Spans .left ys) {rounds : Nat} (hr : ys.length ≤ rounds) :
    s.drain t rounds = .ok ys := by
  induction ys generalizing l s rounds with
  | nil =>
    have hfront : s.front = none := hs.1
    cases rounds with
    | zero => simp [drain, hfront]
    | succ rounds =>
      have hpop : s.popFront t = .ok (none, s) := pop_of_none (d := .left) hfront
      rw [drain, hpop]
      rfl
  | cons n ys ih =>
    rw [List.length_cons] at hr
    obtain ⟨rounds, rfl⟩ : ∃ j, rounds = j + 1 := ⟨rounds - 1, by omega⟩
    obtain ⟨s', hpop, hs'⟩ := pop_eq (d := .left) h hx hs
    have hpop' : s.popFront t = .ok (some n, s') := hpop
    have hrest : s'.drain t rounds = .ok ys := by
      refine ih (l := l ++ [n]) ?_ hs' (by omega)
      rw [hx]
      simp
    rw [drain, hpop']
    show (do return n :: (← s'.drain t rounds)) = _
    rw [hrest]
    rfl

/-- A sweep whose ends are those of what is left has exactly that left. -/
theorem remaining_eq (h : t.Spells x) {i j : Nat} (hs : s.Spans .left (middle x.toList i j)) :
    s.remaining t = .ok (middle x.toList i j) := by
  obtain ⟨l, r, hx⟩ := exists_append_middle x.toList i j
  exact drain_eq h hx hs (Nat.le_trans (length_middle_le ..) h.length_le_bound)

/-! ## Calls -/

/-- What a caller does with a sweep. -/
inductive Call where
  /-- Takes a node from the front. -/
  | front
  /-- Takes a node from the back. -/
  | back
  /-- Copies the sweep, and takes from the front all that the copy has left. -/
  | copy
  deriving DecidableEq, Repr

/-- What a call answers. -/
inductive Answer where
  | node (n : Option NodeId)
  | rest (ns : List NodeId)
  deriving DecidableEq, Repr

/-- The node that was taken. -/
def Answer.taken? : Answer → Option NodeId
  | node n => n
  | rest _ => none

/-- Makes a call. -/
def perform (t : Tree) (s : Sweep) : Call → Except Fault (Answer × Sweep)
  | .front => do
    let (n, s) ← s.popFront t
    return (.node n, s)
  | .back => do
    let (n, s) ← s.popBack t
    return (.node n, s)
  | .copy => do return (.rest (← s.remaining t), s)

/-- Makes calls one after the other. -/
def performAll (t : Tree) : List Call → Sweep → Except Fault (List Answer)
  | [], _ => .ok []
  | call :: calls, s => do
    let (answer, s) ← s.perform t call
    return answer :: (← performAll t calls s)

/-- The answer after `i` calls at the front and `j` at the back, where `xs` are the nodes in
order.  As long as these were fewer than there are nodes, a call answers the next node from
its end, and afterwards none. -/
def Call.answer (xs : List NodeId) (i j : Nat) : Call → Answer
  | front => .node (if i + j < xs.length then xs[i]? else none)
  | back => .node (if i + j < xs.length then xs.reverse[j]? else none)
  | copy => .rest (middle xs i j)

/-- The answers of calls made one after the other, after `i` calls at the front and `j` at the
back. -/
def answers (xs : List NodeId) (i j : Nat) : List Call → List Answer
  | [] => []
  | c :: calls =>
    c.answer xs i j :: answers xs (i + [c].count .front) (j + [c].count .back) calls

theorem length_answers (xs : List NodeId) (i j : Nat) (calls : List Call) :
    (answers xs i j calls).length = calls.length := by
  induction calls generalizing i j with
  | nil => rfl
  | cons c calls ih => rw [answers, List.length_cons, List.length_cons, ih]

theorem add_count_cons (k : Nat) (e c : Call) (calls : List Call) :
    k + (c :: calls).count e = k + [c].count e + calls.count e := by
  rw [← List.singleton_append, List.count_append, Nat.add_assoc]

/-- What a call answers depends on how often each end was asked before it. -/
theorem getElem?_answers (xs : List NodeId) (i j : Nat) (done : List Call) (c : Call)
    (rest : List Call) :
    (answers xs i j (done ++ c :: rest))[done.length]? =
      some (c.answer xs (i + done.count .front) (j + done.count .back)) := by
  induction done generalizing i j with
  | nil => rfl
  | cons d done ih =>
    rw [List.cons_append, answers, List.length_cons, List.getElem?_cons_succ, ih,
      add_count_cons i .front d done, add_count_cons j .back d done]

/-- What a call takes is no longer left. -/
theorem perm_taken_append (xs : List NodeId) (i j : Nat) (c : Call) :
    ((c.answer xs i j).taken?.toList ++
      middle xs (i + [c].count .front) (j + [c].count .back)).Perm (middle xs i j) := by
  cases c with
  | front =>
    show ((if i + j < xs.length then xs[i]? else none).toList ++ middle xs (i + 1) j).Perm _
    rw [← head?_middle, ← tail_middle]
    cases middle xs i j with
    | nil => exact .refl _
    | cons n ns => exact .refl _
  | back =>
    have hperm : ((if i + j < xs.length then xs.reverse[j]? else none).toList ++
        (middle xs i (j + 1)).reverse).Perm (middle xs i j).reverse := by
      rw [reverse_middle, reverse_middle, ← tail_middle, Nat.add_comm i j,
        ← List.length_reverse, ← head?_middle]
      cases middle xs.reverse j i with
      | nil => exact .refl _
      | cons n ns => exact .refl _
    exact ((List.reverse_perm _).symm.append_left _).trans (hperm.trans (List.reverse_perm _))
  | copy => exact .refl _

/-- What calls take and what they leave is what was left before them. -/
theorem perm_taken_answers (xs : List NodeId) (i j : Nat) (calls : List Call) :
    ((answers xs i j calls).filterMap Answer.taken? ++
      middle xs (i + calls.count .front) (j + calls.count .back)).Perm (middle xs i j) := by
  induction calls generalizing i j with
  | nil => exact .refl _
  | cons c calls ih =>
    have htaken : (answers xs i j (c :: calls)).filterMap Answer.taken? =
        (c.answer xs i j).taken?.toList ++
          (answers xs (i + [c].count .front) (j + [c].count .back) calls).filterMap
            Answer.taken? := by
      rw [answers]
      cases hn : (c.answer xs i j).taken? <;> simp [hn]
    rw [htaken, add_count_cons i .front c calls, add_count_cons j .back c calls, List.append_assoc]
    exact ((ih ..).append_left _).trans (perm_taken_append xs i j c)

/-- One call takes from what is left what it answers.  A call at the back is one at the front
of the reversed order. -/
theorem perform_eq (h : t.Spells x) {i j : Nat} (hs : s.Spans .left (middle x.toList i j))
    (c : Call) :
    ∃ s', s.perform t c = .ok (c.answer x.toList i j, s') ∧
      s'.Spans .left (middle x.toList (i + [c].count .front) (j + [c].count .back)) := by
  cases c with
  | front =>
    obtain ⟨l, r, hx⟩ := exists_append_middle x.toList i j
    obtain ⟨s', hpop, hs'⟩ := pop_eq (d := .left) h hx hs
    rw [head?_middle] at hpop
    have hfront : s.popFront t = .ok (if i + j < x.toList.length then x.toList[i]? else none, s') :=
      hpop
    refine ⟨s', ?_, ?_⟩
    · rw [perform, hfront]
      rfl
    · rw [tail_middle] at hs'
      exact hs'
  | back =>
    obtain ⟨l, r, hx⟩ := exists_append_middle x.toList.reverse j i
    have hback := hs.reverse
    rw [reverse_middle] at hback
    obtain ⟨s', hpop, hs'⟩ := pop_eq (d := .right) h hx hback
    rw [head?_middle, List.length_reverse, Nat.add_comm] at hpop
    have hback' : s.popBack t =
        .ok (if i + j < x.toList.length then x.toList.reverse[j]? else none, s') := hpop
    refine ⟨s', ?_, ?_⟩
    · rw [perform, hback']
      rfl
    · rw [tail_middle] at hs'
      have hfront := hs'.reverse
      rw [reverse_middle, List.reverse_reverse] at hfront
      exact hfront
  | copy =>
    refine ⟨s, ?_, hs⟩
    rw [perform, remaining_eq h hs]
    rfl

/-- Calls made one after the other answer from what is left, and have an end. -/
theorem performAll_eq (h : t.Spells x) {i j : Nat} (hs : s.Spans .left (middle x.toList i j))
    (calls : List Call) : s.performAll t calls = .ok (answers x.toList i j calls) := by
  induction calls generalizing s i j with
  | nil => rfl
  | cons c calls ih =>
    obtain ⟨s', hperform, hs'⟩ := perform_eq h hs c
    simp only [performAll, hperform]
    show (do return c.answer x.toList i j :: (← performAll t calls s')) = _
    rw [ih hs']
    rfl

/-! ## Every interleaving -/

/-- In any tree whose links fit together, a sweep answers every interleaving of calls from
the front and from the back by the nodes in order from their two ends, until they meet.
Afterwards both ends answer none, however often they are asked.  Every node is taken once,
and at any moment a copy has exactly those left that were not taken; copying changes no
later answer. -/
theorem sweep_from_both_ends (h : t.Spells x) (calls : List Call) :
    let xs := x.toList
    ∃ answers, (do performAll t calls (← start t)) = .ok answers ∧
      answers.length = calls.length ∧
      (∀ done c rest, calls = done ++ c :: rest →
        let i := done.count .front
        let j := done.count .back
        answers[done.length]? = some (match c with
          | .front => .node (if i + j < xs.length then xs[i]? else none)
          | .back => .node (if i + j < xs.length then xs.reverse[j]? else none)
          | .copy => .rest ((xs.drop i).take (xs.length - (i + j))))) ∧
      xs.Nodup ∧
      (xs.length ≤ calls.count .front + calls.count .back →
        (answers.filterMap Answer.taken?).Perm xs) := by
  intro xs
  have hstart : start t = .ok ⟨xs.head?, xs.getLast?⟩ := by
    rw [start, h.walks.first, h.walks.last]
    rfl
  have hspans : Spans ⟨xs.head?, xs.getLast?⟩ .left (middle x.toList 0 0) := by
    rw [middle_zero]
    exact ⟨rfl, rfl⟩
  refine ⟨answers xs 0 0 calls, ?_, length_answers xs 0 0 calls, ?_, h.nodup, ?_⟩
  · rw [hstart]
    exact performAll_eq h hspans calls
  · intro done c rest hcut i j
    rw [hcut, getElem?_answers, Nat.zero_add, Nat.zero_add]
    cases c <;> rfl
  · intro hall
    have htaken := perm_taken_answers xs 0 0 calls
    rw [Nat.zero_add, Nat.zero_add, middle_eq_nil hall, List.append_nil, middle_zero] at htaken
    exact htaken

/-- A leaning tree with two reds in a row: the ends meet at the node in the middle, and both
are asked again afterwards. -/
theorem sweep_from_both_ends_of_leaning :
    let x : Shape := .node .red (.node .red .leaf 7 (.node .black .leaf 3 .leaf)) 5 .leaf
    let t := Tree.build {} x
    t.Spells x ∧
      ∃ answers,
        (do performAll t [.back, .copy, .front, .front, .copy, .back, .front] (← start t)) =
          .ok answers ∧
        answers[0]? = some (.node (some 5)) ∧ answers[1]? = some (.rest [7, 3]) ∧
        answers[2]? = some (.node (some 7)) ∧ answers[3]? = some (.node (some 3)) ∧
        answers[4]? = some (.rest []) ∧ answers[5]? = some (.node none) ∧
        answers[6]? = some (.node none) ∧
        (answers.filterMap Answer.taken?).Perm [7, 3, 5] := by
  intro x t
  have h : t.Spells x := Tree.spells_build {} (by decide)
  obtain ⟨answers, hrun, -, hanswers, -, hall⟩ :=
    sweep_from_both_ends h [.back, .copy, .front, .front, .copy, .back, .front]
  exact ⟨h, answers, hrun, hanswers [] .back _ rfl, hanswers [.back] .copy _ rfl,
    hanswers [.back, .copy] .front _ rfl, hanswers [.back, .copy, .front] .front _ rfl,
    hanswers [.back, .copy, .front, .front] .copy _ rfl,
    hanswers [.back, .copy, .front, .front, .copy] .back _ rfl,
    hanswers [.back, .copy, .front, .front, .copy, .back] .front _ rfl, hall (by decide)⟩

end Sweep

end RedBlack
