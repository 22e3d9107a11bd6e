import RedBlack.Tree.Basic

/-!
# Linking a node and repairing the reds

A new node is linked as a red leaf into an empty `Slot`.  Black heights stay
what they were, so the one rule that can break is that a red node hangs below a
red node, or that the top is red.  `repairRed` repairs this from the node
upwards: `redRound` either ends the repair or moves the red two levels up.
-/

namespace RedBlack

/-! ## Slots -/

/-- A place that can hold a node: the top of a tree, or a child slot. -/
inductive Slot where
  | top
  | under (parent : NodeId) (side : Side)
  deriving DecidableEq, Repr

namespace Slot

/-- The node that a slot belongs to. -/
def parent : Slot → Option NodeId
  | top => none
  | under p _ => some p

/-- The slot on one side of a parent.  Without a parent it is the top. -/
def below (parent : Option NodeId) (d : Side) : Slot :=
  match parent with
  | none => top
  | some p => under p d

end Slot

namespace Tree

/-- Writes what a slot holds. -/
def fill (t : Tree) (slot : Slot) (n : Option NodeId) : Tree :=
  match slot with
  | .top => t.setTop n
  | .under p d => t.setChild p d n

/-- Resets `n` to a red leaf with the given parent and writes it into a slot. -/
def attach (t : Tree) (n : NodeId) (parent : Option NodeId) (slot : Slot) : Tree :=
  (t.setRecord n { parent }).fill slot (some n)

/-- Links `n` into a slot, as a red leaf below the node that the slot belongs to.
Nothing is repaired. -/
def link (t : Tree) (n : NodeId) (slot : Slot) : Tree := t.attach n slot.parent slot

/-! ## Repairing a red child of a red node -/

/-- The slot of `n` that holds `c`: the right one when it does, otherwise the
left one. -/
def sideOf (t : Tree) (n : NodeId) (c : Option NodeId) : Side :=
  if t.child n .right = c then .right else .left

/-- Moves the red of `p` and of its sibling `u` up to their parent `g`. -/
def passRedUp (t : Tree) (p u g : NodeId) : Tree :=
  ((t.setColor u .black).setColor p .black).setColor g .red

/-- The lower half of a double rotation: lifts `n`, the child of `p` in slot `d`,
above `p`.  What held `p` is left for the upper half. -/
def liftInner (t : Tree) (p n : NodeId) (d : Side) : Tree :=
  ((t.swing p n d).adopt (t.child n d.opposite) p).setParent p (some n)

/-- Lifts `p`, the child of `g` in slot `d`, to the place of `g`.  It takes the
colour of `g`, which becomes red. -/
def liftOuter (t : Tree) (g p : NodeId) (d : Side) : Tree :=
  ((t.swing g p d).adopt (t.child p d.opposite) g).liftAbove g p .red

/-- One round of the repair at a red node `n`.  At the top, `n` turns black, and
below a black node nothing is wrong.  Below a red node `p` the colour of the
other child of the grandparent `g` decides: when it is red, the red of the two
moves up to `g`; otherwise `p`, or `n` if it is the inner grandchild, is lifted
to the place of `g`, and the repair is done. -/
def redRound : Tree × NodeId → Except Fault (Round (Tree × NodeId) Tree)
  | (t, n) =>
    match t.parent n with
    | none => .ok (.done (t.setColor n .black))
    | some p =>
      if t.color p = .black then .ok (.done t)
      else
        match t.parent p with
        | none => .error .absentLink
        | some g =>
          let d := t.sideOf g (some p)
          match t.redChild? g d.opposite with
          | some u => .ok (.again (t.passRedUp p u g, g))
          | none =>
            if t.child p d.opposite = some n then
              .ok (.done ((t.liftInner p n d.opposite).liftOuter g n d))
            else
              .ok (.done (t.liftOuter g p d))

/-- Repairs a tree in which the red node `n` may hang below a red node or be the
top. -/
def repairRed (t : Tree) (n : NodeId) : Except Fault Tree := loop redRound t.bound (t, n)

end Tree

end RedBlack
