import RedBlack.Tree.Basic

/-!
# Trees as text

One line shows a whole tree with its links.  An absent subtree is a dot.  A node
is its name and the letter of its colour; then, only when its parent link is not
the node it hangs from, an exclamation mark and that link; then its two subtrees
in parentheses, unless both are absent.
-/

namespace RedBlack

/-- The letter of a colour. -/
def Color.letter : Color → String
  | .red => "R"
  | .black => "B"

namespace Tree

/-- A link as text. -/
def linkText (name : NodeId → String) : Option NodeId → String
  | none => "null"
  | some n => name n

/-- The text of what hangs from `above`, going at most `depth` nodes down. -/
def textBelow (t : Tree) (name : NodeId → String) :
    (depth : Nat) → (above : Option NodeId) → Option NodeId → String
  | _, _, none => "."
  | 0, _, some _ => "."
  | depth + 1, above, some n =>
    let r := t.record n
    let mark := if r.parent = above then "" else "!" ++ linkText name r.parent
    let slot := t.textBelow name depth (some n)
    let below :=
      if r.left.isNone ∧ r.right.isNone then "" else s!"({slot r.left},{slot r.right})"
    name n ++ r.color.letter ++ mark ++ below

/-- The text of a tree. -/
def text (t : Tree) (name : NodeId → String) : String := t.textBelow name t.bound none t.top

end Tree

end RedBlack
