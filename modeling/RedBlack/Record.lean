import RedBlack.Table

/-!
# Link records

A node is a number.  What a tree knows about a node is its link record: a
colour, the parent and the two children.  All records live in one `Store`, and
a link is the number of another record or absent.  Nothing here says that the
links of a store fit together; that is the business of the modules on trees.
-/

namespace RedBlack

/-- The name of a node: its index in a store. -/
abbrev NodeId := Nat

/-! ## Colours and sides -/

/-- The colour of a node. -/
inductive Color where
  | red
  | black
  deriving DecidableEq, Repr, Inhabited

/-- The number that stands for a colour in the status interface. -/
def Color.code : Color → Nat
  | .red => 0
  | .black => 1

/-- What a node of this colour adds to the black height of a path. -/
def Color.weight : Color → Nat
  | .red => 0
  | .black => 1

theorem Color.eq_red_of_ne {c : Color} (h : c ≠ .black) : c = .red := by
  cases c with
  | red => rfl
  | black => exact absurd rfl h

/-- One of the two child slots of a node. -/
inductive Side where
  | left
  | right
  deriving DecidableEq, Repr, Inhabited

namespace Side

/-- The other slot. -/
def opposite : Side → Side
  | left => right
  | right => left

/-- The position of the slot among the children of a record. -/
def index : Side → Nat
  | left => 0
  | right => 1

@[simp] theorem opposite_opposite (d : Side) : d.opposite.opposite = d := by
  cases d <;> rfl

theorem opposite_ne (d : Side) : d.opposite ≠ d := by
  cases d <;> simp [opposite]

/-- A slot that is not `d` is the one opposite to `d`. -/
theorem eq_opposite_of_ne {d e : Side} (h : e ≠ d) : e = d.opposite := by
  cases d <;> cases e <;> first | rfl | exact absurd rfl h

end Side

/-! ## Records -/

/-- The links and the colour of one node.  A fresh record is red and has no
links: the node is detached. -/
structure Record where
  /-- The node this one hangs below. -/
  parent : Option NodeId := none
  color : Color := .red
  left : Option NodeId := none
  right : Option NodeId := none
  deriving DecidableEq, Repr

namespace Record

/-- The record of a node that is linked nowhere. -/
def detached : Record := {}

instance : Inhabited Record := ⟨detached⟩

/-- The node in a child slot. -/
def child (r : Record) : Side → Option NodeId
  | .left => r.left
  | .right => r.right

/-- Writes a child slot. -/
def setChild (r : Record) (d : Side) (c : Option NodeId) : Record :=
  match d with
  | .left => { r with left := c }
  | .right => { r with right := c }

/-- Exchanges the two child slots. -/
def flip (r : Record) : Record := { r with left := r.right, right := r.left }

/-- A written slot is seen in that slot only. -/
theorem child_setChild (r : Record) (d e : Side) (c : Option NodeId) :
    (r.setChild d c).child e = if e = d then c else r.child e := by
  cases d <;> cases e <;> rfl

@[simp] theorem parent_setChild (r : Record) (d : Side) (c : Option NodeId) :
    (r.setChild d c).parent = r.parent := by
  cases d <;> rfl

@[simp] theorem color_setChild (r : Record) (d : Side) (c : Option NodeId) :
    (r.setChild d c).color = r.color := by
  cases d <;> rfl

end Record

/-- The records of all nodes.  A node that was never written is detached. -/
abbrev Store := Table Record

end RedBlack
