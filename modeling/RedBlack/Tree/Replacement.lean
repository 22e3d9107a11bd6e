import RedBlack.Tree.Basic

/-!
# Putting one node in the place of another

`swapIn` gives a node the place, the colour and the children of another one.  The
shape of the tree and all colours stay, so nothing is repaired.
-/

namespace RedBlack.Tree

/-- Lets the children of `n` hang below `m`. -/
def handChildren (t : Tree) (n m : NodeId) : Tree :=
  (t.adopt (t.child n .left) m).adopt (t.child n .right) m

/-- Puts `new` in the place of `old`.  The record of `old` stays as it is. -/
def swapIn (t : Tree) (old new : NodeId) : Tree :=
  let place := t.parent old
  let t := (t.redirect old (some new) place).handChildren old new
  t.setRecord new { t.record old with parent := place }

end RedBlack.Tree
