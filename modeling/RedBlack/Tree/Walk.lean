import RedBlack.Tree.Basic

/-!
# Walks along the links

A walk goes from node to node by links alone, without a stack.

* In order: `first`, `last`, and `next`, `prev` from any node.
* Children before their parent: `firstPostorder` and `nextPostorder`.  Once the
  node after another one is known, the walk never again reads the record of the
  one it left.
* `toList`, `toListReverse` and `postorder` gather a whole walk.
-/

namespace RedBlack.Tree

/-! ## In order -/

/-- The last node on the way from `n` along the slots on side `d`. -/
def extreme (t : Tree) (d : Side) (n : NodeId) : Except Fault NodeId :=
  loop advance t.bound n
where
  /-- One step to side `d`. -/
  advance (n : NodeId) : Except Fault (Round NodeId NodeId) :=
    match t.child n d with
    | none => .ok (.done n)
    | some c => .ok (.again c)

/-- The outermost node of the tree on side `d`. -/
def outermost (t : Tree) (d : Side) : Except Fault (Option NodeId) :=
  match t.top with
  | none => .ok none
  | some n => some <$> t.extreme d n

/-- The first node in order. -/
def first (t : Tree) : Except Fault (Option NodeId) := t.outermost .left

/-- The last node in order. -/
def last (t : Tree) : Except Fault (Option NodeId) := t.outermost .right

/-- The closest ancestor of `n` that `n` does not lie on side `d` of. -/
def ascend (t : Tree) (d : Side) (n : NodeId) : Except Fault (Option NodeId) :=
  loop climb t.bound n
where
  /-- One step up, as long as it comes from side `d`. -/
  climb (n : NodeId) : Except Fault (Round NodeId (Option NodeId)) :=
    match t.parent n with
    | none => .ok (.done none)
    | some p => if t.child p d = some n then .ok (.again p) else .ok (.done (some p))

/-- The neighbour of `n` in order, towards side `d`: the outermost node on the
other side of the subtree there, or else the closest ancestor that `n` lies on
the other side of. -/
def neighbour (t : Tree) (d : Side) (n : NodeId) : Except Fault (Option NodeId) :=
  match t.child n d with
  | some c => some <$> t.extreme d.opposite c
  | none => t.ascend d n

/-- The node after `n` in order. -/
def next (t : Tree) (n : NodeId) : Except Fault (Option NodeId) := t.neighbour .right n

/-- The node before `n` in order. -/
def prev (t : Tree) (n : NodeId) : Except Fault (Option NodeId) := t.neighbour .left n

/-! ## Children before parents -/

/-- The leaf reached from `n` by going left where there is a left child, and
right otherwise. -/
def firstLeaf (t : Tree) (n : NodeId) : Except Fault NodeId :=
  loop advance t.bound n
where
  /-- One step down. -/
  advance (n : NodeId) : Except Fault (Round NodeId NodeId) :=
    match t.child n .left, t.child n .right with
    | some c, _ | none, some c => .ok (.again c)
    | none, none => .ok (.done n)

/-- The node that a walk with children before parents starts at. -/
def firstPostorder (t : Tree) : Except Fault (Option NodeId) :=
  match t.top with
  | none => .ok none
  | some n => some <$> t.firstLeaf n

/-- The node after `n` in a walk with children before parents: after a left
child, the first leaf on the right side of the parent if there is one; else the
parent. -/
def nextPostorder (t : Tree) (n : NodeId) : Except Fault (Option NodeId) :=
  match t.parent n with
  | none => .ok none
  | some p =>
    match t.child p .right with
    | some r => if t.child p .left = some n then some <$> t.firstLeaf r else .ok (some p)
    | none => .ok (some p)

/-! ## Whole walks -/

/-- The nodes from first to last. -/
def toList (t : Tree) : Except Fault (List NodeId) := do
  collect t.next t.bound (← t.first)

/-- The nodes from last to first. -/
def toListReverse (t : Tree) : Except Fault (List NodeId) := do
  collect t.prev t.bound (← t.last)

/-- The nodes, children before their parent. -/
def postorder (t : Tree) : Except Fault (List NodeId) := do
  collect t.nextPostorder t.bound (← t.firstPostorder)

end RedBlack.Tree
