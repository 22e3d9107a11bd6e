import RedBlack.Tree.Calls

/-!
# Several trees over one store

A `Forest` is one store of records and any number of tops.  Each top is a tree
of its own; a node moves from one tree to another by being removed from the one
and inserted into the other.
-/

namespace RedBlack

/-- The name of a tree in a forest. -/
abbrev RootId := Nat

/-- Trees over one store.  A tree that was never used is empty. -/
structure Forest where
  store : Store := {}
  tops : Table (Option NodeId) := {}
  deriving Repr

namespace Forest

instance : Inhabited Forest := ⟨{}⟩

/-- A forest of detached nodes and empty trees. -/
def detached (nodes : Nat) : Forest := { store := .blank nodes }

/-- The forest whose tree number zero is `t`. -/
def ofTree (t : Tree) : Forest := { store := t.store, tops := ({} : Table _).set 0 t.top }

/-- One of the trees. -/
def tree (f : Forest) (r : RootId) : Tree := { store := f.store, top := f.tops.get r }

/-- The records as a tree with nothing at the top.  It serves to walk from a node
that is at hand. -/
def links (f : Forest) : Tree := { store := f.store }

/-- Puts a tree back after a change. -/
def put (f : Forest) (r : RootId) (t : Tree) : Forest :=
  { store := t.store, tops := f.tops.set r t.top }

/-- Makes a call on one of the trees. -/
def edit {α : Type} (f : Forest) (r : RootId) (call : Tree → Outcome Tree α) : Outcome Forest α :=
  (call (f.tree r)).inside (f.put r)

end Forest

end RedBlack
