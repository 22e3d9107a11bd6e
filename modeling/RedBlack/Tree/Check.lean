import RedBlack.Tree.Basic
import RedBlack.Violation

/-!
# Checking a tree

`Tree.validate` walks a tree from the top and answers its measures, or the first
rule it finds broken.  The order of the search is part of the answer: the colour
and the parent of the top come first; then, node by node and the left child
before the right, the parent link of a child, two reds in a row and the whole
subtree of the child; and last the black heights of the two sides of the node.

A node is entered only when it points back to the node the walk comes from, so
no path meets a node twice and the number of records bounds the depth.  But a
node that stands in both slots of its parent is entered twice, with all that hangs
below it.  So the nodes are counted one by one, in the order in which they are
entered, and a count that no longer fits into a word ends the check.
-/

namespace RedBlack.Tree

/-- Checks what hangs in slot `d` of `n`, where `below` checks the subtree of a
node.  An absent child is in order and measures nothing. -/
def checkSlot (t : Tree) (below : NodeId → Except Violation Stats) (n : NodeId) (d : Side) :
    Except Violation Stats :=
  match t.child n d with
  | none => .ok {}
  | some c =>
    if t.parent c ≠ some n then .error (.brokenParent n c)
    else if t.color n = .red ∧ t.color c = .red then .error (.redRed n c)
    else below c

/-- The first number of nodes that the check cannot count: the number of values of a
word.  A store in memory has fewer records than that.  The maximum says so of every
store, so that nodes are never too many to be counted once. -/
def countLimit (t : Tree) : Nat := max UInt64.size t.bound

theorem size_lt_countLimit (t : Tree) : t.store.size < t.countLimit :=
  Nat.le_max_right UInt64.size t.bound

/-- The answer for a node, from those for its two slots.  The right one is asked
when the left one is in order. -/
def joined (t : Tree) (n : NodeId) (left : Except Violation Stats)
    (right : Stats → Except Violation Stats) : Except Violation Stats := do
  let l ← left
  let r ← right l
  if l.blackHeight = r.blackHeight then
    return .join (t.color n) l r
  else
    throw (.blackHeight n l.blackHeight r.blackHeight)

/-- Checks the subtree of a node when `seen` nodes are counted before it.  It goes at
most `depth` nodes down, a bound that is there for the recursion and never met. -/
def checkBelow (t : Tree) : (depth seen : Nat) → NodeId → Except Violation Stats
  | 0, _, n => .error (.tooDeep n)
  | depth + 1, seen, n =>
    if seen + 1 < t.countLimit then
      t.joined n (t.checkSlot (t.checkBelow depth (seen + 1)) n .left) fun l =>
        t.checkSlot (t.checkBelow depth (seen + 1 + l.size)) n .right
    else .error (.tooDeep n)

/-- The measures of a red-black tree, or the first rule that is broken, unless the
count of the nodes overflows before. -/
def validate (t : Tree) : Except Violation Stats :=
  match t.top with
  | none => .ok {}
  | some n =>
    if t.color n = .red then .error (.redTop n)
    else if (t.parent n).isSome then .error (.topHasParent n)
    else t.checkBelow t.store.size 0 n

end RedBlack.Tree
