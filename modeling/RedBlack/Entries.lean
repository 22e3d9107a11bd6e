import RedBlack.Tree.Calls
import RedBlack.Tree.Sweep

/-!
# Elements with values

`Entries α` is a tree whose nodes carry values of a type with an order, and the
tree is searched by them.  Elements are numbered as they are created and stay
when they are removed from the tree: an element is linked, removed and linked
again under one number.

Equal values stand in the order in which they were inserted.  Writing a value
never moves an element, so a tree can also get out of order.
-/

namespace RedBlack

/-- A tree and the values of its nodes. -/
structure Entries (α : Type) where
  tree : Tree := {}
  /-- The values of the elements, by number. -/
  values : Array α := #[]
  deriving Repr

namespace Entries

variable {α : Type}

instance : Inhabited (Entries α) := ⟨{}⟩

/-- The value of an element. -/
def value? (e : Entries α) (n : NodeId) : Option α := e.values[n]?

/-- Writes the value of an element, and leaves it where it is. -/
def setValue (e : Entries α) (n : NodeId) (v : α) : Entries α :=
  { e with values := e.values.setIfInBounds n v }

/-- Creates a detached element and answers its number. -/
def create (e : Entries α) (v : α) : NodeId × Entries α :=
  (e.values.size, { tree := e.tree.reset e.values.size, values := e.values.push v })

/-- Makes an element detached. -/
def reset (e : Entries α) (n : NodeId) : Entries α := { e with tree := e.tree.reset n }

/-- A call on the tree, which keeps all values. -/
def edit (e : Entries α) (call : Tree → Outcome Tree Unit) : Outcome (Entries α) Unit :=
  (call e.tree).inside fun t => { e with tree := t }

/-- Removes an element from the tree. -/
def remove (e : Entries α) (n : Option NodeId) : Outcome (Entries α) Unit :=
  e.edit fun t => t.remove n

/-- Puts one element in the place of another, whatever their values. -/
def replace (e : Entries α) (old new : Option NodeId) : Outcome (Entries α) Unit :=
  e.edit fun t => t.replace old new

/-- The values of the elements in the tree, from first to last. -/
def toList (e : Entries α) : Except Fault (List α) := do
  return (← (← Sweep.start e.tree).remaining e.tree).filterMap e.value?

/-! ## By value -/

variable [Ord α]

/-- How one element stands to another, by their values. -/
def compareNodes (e : Entries α) (n m : NodeId) : Ordering := compare (e.value? n) (e.value? m)

/-- Inserts an element, behind everything that is not greater. -/
def insertNode (e : Entries α) (n : Option NodeId) : Outcome (Entries α) Unit :=
  e.edit fun t => t.insert e.compareNodes n

/-- Creates an element and inserts it. -/
def insert (e : Entries α) (v : α) : Outcome (Entries α) Unit :=
  let (n, e) := e.create v
  e.insertNode (some n)

/-- An element with a value equal to `v`: the first one on the way down. -/
def find (e : Entries α) (v : α) : Except Fault (Option NodeId) :=
  e.tree.find fun n => compare (some v) (e.value? n)

end Entries

/-! ## Values with a key -/

/-- A key with a text that takes no part in comparisons. -/
structure Tagged where
  key : Int
  text : String
  deriving Repr

instance : Ord Tagged := ⟨fun a b => compare a.key b.key⟩

instance : BEq Tagged := ⟨fun a b => a.key == b.key⟩

/-- The one value of the unit type is equal to itself. -/
instance unitOrd : Ord Unit := ⟨fun _ _ => .eq⟩

end RedBlack
