import RedBlack.Record

/-!
# What can be wrong with a red-black tree

`Violation` names the ways in which link records can fail to form a red-black
tree, and `Stats` is what a check reports when they do form one.  Each violation
has a name, a message for a reader and a literal form that lists its fields.
The last two show nodes through a function `name`, and write `#` before each.

A check counts nodes in a word of fixed width.  `Violation.tooDeep` stands for
the end of a check whose count grows too large for it.
-/

namespace RedBlack

/-- The measures of a tree that passed a check. -/
structure Stats where
  /-- The number of nodes. -/
  size : Nat := 0
  /-- The black nodes on every path from the top to an absent child. -/
  blackHeight : Nat := 0
  /-- The nodes on the longest such path. -/
  height : Nat := 0
  deriving DecidableEq, Repr, Inhabited

/-- The measures of a node over two subtrees.  The black height is that of the
left one, which a check has compared with the right one.  The size has been
counted node by node by then, so that this sum is not too large for a word, and
the heights count levels, which are no more than the records. -/
def Stats.join (c : Color) (left right : Stats) : Stats where
  size := left.size + 1 + right.size
  blackHeight := left.blackHeight + c.weight
  height := 1 + max left.height right.height

/-- A rule of red-black trees that some nodes break, or the overflow that keeps a
check from finding out. -/
inductive Violation where
  /-- The top is red. -/
  | redTop (node : NodeId)
  /-- The top hangs below a node. -/
  | topHasParent (node : NodeId)
  /-- A red node has a red child. -/
  | redRed (parent child : NodeId)
  /-- The two sides of a node differ in black height. -/
  | blackHeight (node : NodeId) (left right : Nat)
  /-- A child hangs below another node than the one whose slot holds it. -/
  | brokenParent (parent child : NodeId)
  /-- No rule is broken so far, but the check is too deep in the tree: with this
  node, it has entered more nodes than a word counts. -/
  | tooDeep (node : NodeId)
  deriving DecidableEq, Repr

/-- What is said of a sum that is too large for its type. -/
def overflowMessage : String := "attempt to add with overflow"

namespace Violation

/-- The name of the broken rule. -/
def kind : Violation → String
  | redTop _ => "RedRoot"
  | topHasParent _ => "RootHasParent"
  | redRed .. => "RedRed"
  | blackHeight .. => "BlackHeight"
  | brokenParent .. => "BrokenParentLink"
  | tooDeep _ => "TooDeep"

/-- The violation in words. -/
def message (name : NodeId → String) : Violation → String
  | redTop n => s!"root node #{name n} is red"
  | topHasParent n => s!"root node #{name n} has a parent"
  | redRed p c => s!"red node #{name p} has red child #{name c}"
  | blackHeight n l r => s!"node #{name n} has black height {l} on the left and {r} on the right"
  | brokenParent p c => s!"child #{name c} does not point back to parent #{name p}"
  | tooDeep _ => overflowMessage

/-- The violation as its name and its fields.  A lone field stands in
parentheses; several stand in braces, each with its label. -/
def literal (name : NodeId → String) (v : Violation) : String :=
  match v with
  | redTop n | topHasParent n | tooDeep n => s!"{v.kind}(#{name n})"
  | redRed p c | brokenParent p c =>
    labelled [("parent", s!"#{name p}"), ("child", s!"#{name c}")]
  | blackHeight n l r =>
    labelled [("node", s!"#{name n}"), ("left", s!"{l}"), ("right", s!"{r}")]
where
  /-- The fields in braces, separated by commas. -/
  labelled (fields : List (String × String)) : String :=
    let items := fields.map fun (label, text) => s!"{label}: {text}"
    v.kind ++ " \x7b " ++ ", ".intercalate items ++ " \x7d"

end Violation

end RedBlack
