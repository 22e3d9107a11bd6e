import RedBlack.Outcome
import RedBlack.Tree.Check
import RedBlack.Tree.Descent
import RedBlack.Tree.Removal
import RedBlack.Tree.Replacement

/-!
# Calls on a tree

The operations as callers see them.  A node argument may be absent; then the call
is refused as an invalid argument, and nothing is written.  A call that does its
work ends with a check of the whole tree, and a broken rule makes it fail with
the work done.
-/

namespace RedBlack.Tree

/-- The call on a node, refused when the node is absent. -/
def given (t : Tree) (n : Option NodeId) (call : NodeId → Outcome Tree Unit) : Outcome Tree Unit :=
  match n with
  | none => .error (.refused .invalidArgument) t
  | some n => call n

/-- Ends a call with a check of the tree it made. -/
def checked (t : Tree) : Outcome Tree Unit :=
  match t.validate with
  | .ok _ => .ok () t
  | .error violation => .error (.ofViolation violation) t

/-- The call that does a piece of work on `t` and checks what comes out. -/
def commit (t : Tree) : Except Fault Tree → Outcome Tree Unit
  | .ok done => done.checked
  | .error fault => .error (.lost fault) t

/-- Links a node into the slot on side `d` of `parent`, or at the top when there
is no parent.  The tree is neither repaired nor checked. -/
def linkNode (t : Tree) (n parent : Option NodeId) (d : Side) : Outcome Tree Unit :=
  t.given n fun n => .ok () (t.link n (.below parent d))

/-- Repairs the tree after `n` was linked into it. -/
def rebalance (t : Tree) (n : Option NodeId) : Outcome Tree Unit :=
  t.given n fun n => t.commit (t.repairRed n)

/-- Inserts a node, where `compare n m` tells how the new node `n` stands to a
node `m` of the tree. -/
def insert (t : Tree) (compare : NodeId → NodeId → Ordering) (n : Option NodeId) :
    Outcome Tree Unit :=
  t.given n fun n =>
    (Outcome.ask t (t.slotFor (compare n))).andThen fun slot t =>
      (t.link n slot).rebalance (some n)

/-- Removes a node. -/
def remove (t : Tree) (n : Option NodeId) : Outcome Tree Unit :=
  t.given n fun n => t.commit (t.unlink n)

/-- Puts the node `new` in the place of `old`. -/
def replace (t : Tree) (old new : Option NodeId) : Outcome Tree Unit :=
  t.given old fun old => t.given new fun new => t.commit (.ok (t.swapIn old new))

/-- Makes a node detached, whatever it was. -/
def reset (t : Tree) (n : NodeId) : Tree := t.setRecord n .detached

end RedBlack.Tree
