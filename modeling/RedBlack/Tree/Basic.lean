import RedBlack.Record
import RedBlack.Rounds

/-!
# Trees over a store

A `Tree` is a store of link records together with the top node.  Several trees
may share one store; a tree is only a place to start from.

There are three groups.

* Reading: `parent`, `color`, `child`, and `redChild?`, which answers the node in
  a slot when there is one and it is red.
* Writing one field: `setParent`, `setColor`, `setChild`, `setTop`.
* The link moves that every repair is made of.  `adopt` writes a parent link
  where there is a node, `redirect` lets the place of one node hold another,
  `swing` exchanges the roles of a node and one of its children in the child
  slots, and `liftAbove` completes such an exchange upwards.
-/

namespace RedBlack

/-- A store of link records and the node at the top, if any. -/
structure Tree where
  store : Store := {}
  top : Option NodeId := none
  deriving Repr

namespace Tree

instance : Inhabited Tree := ⟨{}⟩

/-- Whether nothing hangs below the top. -/
def isEmpty (t : Tree) : Bool := t.top.isNone

/-- More rounds than any walk along links that does not come back to a node it
has met: one for every record written, and one for a node without a record. -/
def bound (t : Tree) : Nat := t.store.size + 1

/-! ## Reading -/

/-- The record of a node. -/
def record (t : Tree) (n : NodeId) : Record := t.store.get n

/-- The node that `n` hangs below. -/
def parent (t : Tree) (n : NodeId) : Option NodeId := (t.record n).parent

/-- The colour of a node. -/
def color (t : Tree) (n : NodeId) : Color := (t.record n).color

/-- The node in a child slot. -/
def child (t : Tree) (n : NodeId) (d : Side) : Option NodeId := (t.record n).child d

/-- The node in a child slot, when there is one and it is red. -/
def redChild? (t : Tree) (n : NodeId) (d : Side) : Option NodeId :=
  (t.child n d).filter fun c => t.color c = .red

/-! ## Writing one field -/

/-- Writes the whole record of a node. -/
def setRecord (t : Tree) (n : NodeId) (r : Record) : Tree :=
  { t with store := t.store.set n r }

/-- Writes the parent link of a node. -/
def setParent (t : Tree) (n : NodeId) (p : Option NodeId) : Tree :=
  { t with store := t.store.modify n fun r => { r with parent := p } }

/-- Writes the colour of a node. -/
def setColor (t : Tree) (n : NodeId) (c : Color) : Tree :=
  { t with store := t.store.modify n fun r => { r with color := c } }

/-- Writes a child slot of a node. -/
def setChild (t : Tree) (n : NodeId) (d : Side) (c : Option NodeId) : Tree :=
  { t with store := t.store.modify n fun r => r.setChild d c }

/-- Writes the top. -/
def setTop (t : Tree) (n : Option NodeId) : Tree := { t with top := n }

/-! ## What a write changes -/

@[simp] theorem top_setRecord (t : Tree) (n : NodeId) (r : Record) :
    (t.setRecord n r).top = t.top := rfl

@[simp] theorem top_setParent (t : Tree) (n : NodeId) (p : Option NodeId) :
    (t.setParent n p).top = t.top := rfl

@[simp] theorem top_setColor (t : Tree) (n : NodeId) (c : Color) :
    (t.setColor n c).top = t.top := rfl

@[simp] theorem top_setChild (t : Tree) (n : NodeId) (d : Side) (c : Option NodeId) :
    (t.setChild n d c).top = t.top := rfl

@[simp] theorem top_setTop (t : Tree) (n : Option NodeId) : (t.setTop n).top = n := rfl

@[simp] theorem record_setTop (t : Tree) (n : Option NodeId) (m : NodeId) :
    (t.setTop n).record m = t.record m := rfl

/-- A written record is seen at its node and nowhere else; so for each field. -/
theorem record_setRecord (t : Tree) (n m : NodeId) (r : Record) :
    (t.setRecord n r).record m = if m = n then r else t.record m :=
  Table.get_set t.store n m r

theorem record_setParent (t : Tree) (n m : NodeId) (p : Option NodeId) :
    (t.setParent n p).record m =
      if m = n then { t.record n with parent := p } else t.record m :=
  Table.get_modify t.store n m _

theorem record_setColor (t : Tree) (n m : NodeId) (c : Color) :
    (t.setColor n c).record m =
      if m = n then { t.record n with color := c } else t.record m :=
  Table.get_modify t.store n m _

theorem record_setChild (t : Tree) (n m : NodeId) (d : Side) (c : Option NodeId) :
    (t.setChild n d c).record m =
      if m = n then (t.record n).setChild d c else t.record m :=
  Table.get_modify t.store n m _

/-! ## Link moves -/

/-- Lets `n`, when there is such a node, hang below `p`. -/
def adopt (t : Tree) (n : Option NodeId) (p : NodeId) : Tree :=
  match n with
  | none => t
  | some n => t.setParent n (some p)

/-- Lets the place of `old` below `p` hold `new`.  Without a parent the place is
the top; otherwise it is the left slot when that holds `old`, and the right slot
when it does not. -/
def redirect (t : Tree) (old : NodeId) (new p : Option NodeId) : Tree :=
  match p with
  | none => t.setTop new
  | some p =>
    if t.child p .left = some old then t.setChild p .left new else t.setChild p .right new

/-- The child slots after a rotation that lifts `c` from slot `d` of `n`: the
subtree of `c` on the inner side moves over to `n`, and `n` takes its slot. -/
def swing (t : Tree) (n c : NodeId) (d : Side) : Tree :=
  (t.setChild n d (t.child c d.opposite)).setChild c d.opposite (some n)

/-- Completes a rotation that lifts `n` above `old`: `n` takes the parent, the
colour and the place of `old`, which hangs below `n` in the given colour. -/
def liftAbove (t : Tree) (old n : NodeId) (c : Color) : Tree :=
  let p := t.parent old
  let t := (t.setParent n p).setColor n (t.color old)
  ((t.setParent old (some n)).setColor old c).redirect old (some n) p

end Tree

end RedBlack
