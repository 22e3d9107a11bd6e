import RedBlack.Tree.Insertion

/-!
# Unlinking a node and repairing the deficit

Removal has two halves.  `splice` takes a node out: its only child, or the
leftmost node of its right side when it has two children, comes in its place.
If this costs the paths on one side of some node a black node, `splice` names
that node as the place of the `deficit`.

`repairDeficit` makes up for it.  Below the node `p` at hand one side, the short
side, lacks a black node; `s` is the child on the other side, and its children
are the near one (towards the short side) and the far one.  A round either ends
the repair or finds all of `p` short and moves up to its parent.
-/

namespace RedBlack

/-- A tree after a node was taken out of it. -/
structure Splice where
  tree : Tree
  /-- The node below which the paths through one empty slot lack a black node. -/
  deficit : Option NodeId
  deriving Repr

namespace Tree

/-! ## Taking a node out -/

/-- Puts the only child `c` of `n` in the place of `n`, with its colour. -/
def promote (t : Tree) (n c : NodeId) : Tree :=
  ((t.redirect n (some c) (t.parent n)).setParent c (t.parent n)).setColor c (t.color n)

/-- Takes out the leaf `n`.  The place is short of a black node if `n` was black. -/
def dropLeaf (t : Tree) (n : NodeId) : Splice where
  tree := t.redirect n none (t.parent n)
  deficit := if t.color n = .black then t.parent n else none

/-- Frees `s`, the left child of `p` and the leftmost node below `r`: its right
child takes its slot, and `r` becomes its right child. -/
def freeLeftmost (t : Tree) (r s p : NodeId) : Tree :=
  ((t.setChild p .left (t.child s .right)).setChild s .right (some r)).setParent r (some s)

/-- Puts `s` in the place of `n`, over the left child `l` of `n` and with its
colour.  The slot of `p` that `s` has left holds `c` now; if `s` was the right child
of `n`, then `p` is `s` and that slot is its right one.  A node there turns black,
and an empty slot lacks a black node when `s` was black. -/
def takeOver (t : Tree) (n l s p : NodeId) (c : Option NodeId) : Splice :=
  let t := (t.setChild s .left (some l)).setParent l (some s)
  let place := t.parent n
  let color := t.color n
  let t := t.redirect n (some s) place
  let settle (t : Tree) := (t.setParent s place).setColor s color
  match c with
  | some c => ⟨settle ((t.setParent c (some p)).setColor c .black), none⟩
  | none => ⟨settle t, if t.color s = .black then some p else none⟩

/-- The leftmost node below `n`, which has a left child `c`, and its parent. -/
def leftmostBelow (t : Tree) (n c : NodeId) : Except Fault (NodeId × NodeId) :=
  loop advance t.bound (n, c)
where
  /-- One step to the left, from a node and its left child. -/
  advance : NodeId × NodeId → Except Fault (Round (NodeId × NodeId) (NodeId × NodeId))
    | (p, s) =>
      match t.child s .left with
      | none => .ok (.done (p, s))
      | some c => .ok (.again (s, c))

/-- Takes `n` out of the tree.  Its own record stays as it is.  With two children,
the leftmost node on its right side takes its place: its right child, or a node
further down, which is freed first. -/
def splice (t : Tree) (n : NodeId) : Except Fault Splice :=
  match t.child n .left, t.child n .right with
  | none, none => .ok (t.dropLeaf n)
  | none, some c | some c, none => .ok ⟨t.promote n c, none⟩
  | some l, some r =>
    match t.child r .left with
    | none => .ok (t.takeOver n l r r (t.child r .right))
    | some c => do
      let (p, s) ← t.leftmostBelow r c
      return (t.freeLeftmost r s p).takeOver n l s p (t.child s .right)

/-! ## Repairing a deficit -/

/-- Lifts the red child `s` of `p` in slot `d` above `p`, and answers the near
child of `s`, which is now the child of `p` in that slot. -/
def lowerShort (t : Tree) (p s : NodeId) (d : Side) : Except Fault (Tree × NodeId) :=
  match t.child s d.opposite with
  | none => .error .absentLink
  | some near => .ok (((t.swing p s d).setParent near (some p)).liftAbove p s .red, near)

/-- Lifts the red near child of `s` above `s`, in slot `d` of `p`.  Colours and
the parent links of the two are left for the last rotation. -/
def liftNear (t : Tree) (p s near : NodeId) (d : Side) : Tree :=
  ((t.swing s near d.opposite).setChild p d (some near)).adopt (t.child near d) s

/-- Lifts `s`, the child of `p` in slot `d`, to the place and colour of `p`.  Then
`p` and the far child of `s` are black below it, and the short side has its
black node back. -/
def closeDeficit (t : Tree) (p s far : NodeId) (d : Side) : Tree :=
  ((((t.swing p s d).setParent far (some s)).setColor far .black).adopt
    (t.child s d.opposite) p).liftAbove p s .black

/-- The end of a round, where the child `s` of `p` in slot `d` is black.  With a
red child of its own, `s` can be lifted to close the deficit.  Otherwise `s`
turns red, so that both sides of `p` are equally short: a red `p` turns black and
makes up for it, and a black `p` passes the deficit on to its parent. -/
def balanceSibling (t : Tree) (p s : NodeId) (d : Side) :
    Round (Tree × NodeId × Option NodeId) Tree :=
  match t.redChild? s d with
  | some far => .done (t.closeDeficit p s far d)
  | none =>
    match t.redChild? s d.opposite with
    | some near => .done ((t.liftNear p s near d).closeDeficit p near s d)
    | none =>
      let t := t.setColor s .red
      if t.color p = .red then .done (t.setColor p .black)
      else
        match t.parent p with
        | none => .done t
        | some g => .again (t, g, some p)

/-- One round of the repair below `p`, where the slot that holds `n` is short.  A
red child on the other side is first lifted above `p`, which leaves `p` with a
black one. -/
def deficitRound :
    Tree × NodeId × Option NodeId → Except Fault (Round (Tree × NodeId × Option NodeId) Tree)
  | (t, p, n) =>
    let d := (t.sideOf p n).opposite
    match t.child p d with
    | none => .error .absentLink
    | some s =>
      if t.color s = .red then do
        let (t, s) ← t.lowerShort p s d
        return t.balanceSibling p s d
      else
        .ok (t.balanceSibling p s d)

/-- Repairs a tree in which the paths through an empty slot of `p` lack a black
node. -/
def repairDeficit (t : Tree) (p : NodeId) : Except Fault Tree :=
  loop deficitRound t.bound (t, p, none)

/-- Takes `n` out of the tree and repairs the deficit this leaves. -/
def unlink (t : Tree) (n : NodeId) : Except Fault Tree := do
  let spliced ← t.splice n
  match spliced.deficit with
  | none => return spliced.tree
  | some p => spliced.tree.repairDeficit p

end Tree

end RedBlack
