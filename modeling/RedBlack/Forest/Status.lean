import RedBlack.Forest.Basic
import RedBlack.Tree.Walk

/-!
# The status interface

The same operations for callers who have only numbers and links that may be
absent.  Every argument can be absent, also the tree itself.  A call that changes
something answers a status, and refuses an absent argument before it writes
anything.  A call that looks something up answers an absent node for an absent
argument.

A caller of this interface goes down the tree on its own: it keeps the slot it
has reached, links the new node there, and then has the tree balanced.
-/

namespace RedBlack.Forest

/-! ## Calls that answer a status -/

/-- The status of an outcome.  A refusal is an answer here; other failures stay. -/
def withStatus (o : Outcome Forest Unit) : Outcome Forest Int :=
  match o with
  | .ok () f => .ok (status (.ok () : Except ErrorCode Unit)) f
  | .error (.refused code) f => .ok code.negated f
  | .error failure f => .error failure f

/-- The answer to an absent argument. -/
def refuse (f : Forest) : Outcome Forest Int := .ok ErrorCode.invalidArgument.negated f

/-- A call on a tree that may be absent. -/
def call (f : Forest) (root : Option RootId) (edit : Tree → Outcome Tree Unit) :
    Outcome Forest Int :=
  match root with
  | none => f.refuse
  | some r => withStatus (f.edit r edit)

/-- Makes a node detached. -/
def resetNode (f : Forest) (n : Option NodeId) : Outcome Forest Int :=
  match n with
  | none => f.refuse
  | some n => .ok 0 { f with store := f.store.set n .detached }

/-- Resets `n`, stores its parent and writes it into a slot; the top slot is that
of tree `r`.  The slot need not belong to the parent: that is up to the caller. -/
def linkNode (f : Forest) (r : RootId) (n parent : Option NodeId) (slot : Option Slot) :
    Outcome Forest Int :=
  match n, slot with
  | some n, some slot => .ok 0 (f.put r ((f.tree r).attach n parent slot))
  | _, _ => f.refuse

/-- Repairs a tree after a node was linked into it. -/
def balance (f : Forest) (root : Option RootId) (n : Option NodeId) : Outcome Forest Int :=
  f.call root fun t => t.rebalance n

/-- Removes a node. -/
def remove (f : Forest) (root : Option RootId) (n : Option NodeId) : Outcome Forest Int :=
  f.call root fun t => t.remove n

/-- Puts one node in the place of another. -/
def replace (f : Forest) (root : Option RootId) (old new : Option NodeId) : Outcome Forest Int :=
  f.call root fun t => t.replace old new

/-! ## Looking up -/

/-- Whether a tree is empty.  An absent tree is. -/
def isEmpty (f : Forest) (root : Option RootId) : Bool := root.all fun r => (f.tree r).isEmpty

/-- The node that `ask` finds in a tree, if there is a tree. -/
def lookUp {ι : Type} (i : Option ι) (ask : ι → Except Fault (Option NodeId)) :
    Except Fault (Option NodeId) :=
  match i with
  | none => .ok none
  | some i => ask i

/-- The first node of a tree. -/
def first (f : Forest) (root : Option RootId) : Except Fault (Option NodeId) :=
  lookUp root fun r => (f.tree r).first

/-- The last node of a tree. -/
def last (f : Forest) (root : Option RootId) : Except Fault (Option NodeId) :=
  lookUp root fun r => (f.tree r).last

/-- The node after another one. -/
def next (f : Forest) (n : Option NodeId) : Except Fault (Option NodeId) :=
  lookUp n f.links.next

/-- The node before another one. -/
def prev (f : Forest) (n : Option NodeId) : Except Fault (Option NodeId) :=
  lookUp n f.links.prev

/-- The parent of a node. -/
def parent (f : Forest) (n : Option NodeId) : Option NodeId := n.bind f.links.parent

/-- The number of the colour of a node.  An absent node is black. -/
def colorCode (f : Forest) (n : Option NodeId) : Nat :=
  (n.elim Color.black f.links.color).code

/-- The nodes of a tree, from `first` on by `next`. -/
def toList (f : Forest) (root : Option RootId) : Except Fault (List NodeId) := do
  collect (fun n => f.next (some n)) f.links.bound (← f.first root)

/-! ## Insertion by the caller -/

/-- What a slot holds; the top slot is that of tree `r`. -/
def held (f : Forest) (r : RootId) : Slot → Option NodeId
  | .top => f.tops.get r
  | .under p d => f.links.child p d

/-- The way down from the top of tree `r`: to the left of nodes that `isBefore`
says yes to, and to the right of the others.  It ends at an empty slot, and
answers the last node passed and that slot. -/
def descend (f : Forest) (r : RootId) (isBefore : NodeId → Bool) :
    Except Fault (Option NodeId × Slot) :=
  loop go (f.links.bound + 1) (none, .top)
where
  /-- One step down. -/
  go : Option NodeId × Slot → Except Fault (Round (Option NodeId × Slot) (Option NodeId × Slot))
    | (parent, slot) =>
      match f.held r slot with
      | none => .ok (.done (parent, slot))
      | some n => .ok (.again (some n, .under n (if isBefore n then .left else .right)))

/-- Inserts `n` into tree `r` in the caller's own steps, before the nodes that
`isBefore` says yes to.  The answers are the statuses of linking and of
balancing. -/
def insertBefore (f : Forest) (r : RootId) (isBefore : NodeId → Bool) (n : NodeId) :
    Outcome Forest (Int × Int) :=
  (Outcome.ask f (f.descend r isBefore)).andThen fun (parent, slot) f =>
    (f.linkNode r (some n) parent (some slot)).andThen fun linked f =>
      (f.balance (some r) (some n)).andThen fun balanced f =>
        .ok (linked, balanced) f

end RedBlack.Forest
