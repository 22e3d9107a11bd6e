import RedBlack.Tree.Insertion

/-!
# Going down by comparison

A tree does not know keys.  Whoever searches brings a function that answers, for
each node on the way, how what is sought stands to it.
-/

namespace RedBlack.Tree

/-- The empty slot for something new: left of a node when it comes before it,
right otherwise, so that it ends up behind everything equal to it. -/
def slotFor (t : Tree) (order : NodeId → Ordering) : Except Fault Slot :=
  match t.top with
  | none => .ok .top
  | some n => loop descend t.bound n
where
  /-- One step down: to the child on the chosen side, or to its empty slot. -/
  descend (n : NodeId) : Except Fault (Round NodeId Slot) :=
    let d : Side := if order n = .lt then .left else .right
    match t.child n d with
    | none => .ok (.done (.under n d))
    | some c => .ok (.again c)

/-- The first node on the way down that answers `eq`. -/
def find (t : Tree) (order : NodeId → Ordering) : Except Fault (Option NodeId) :=
  match t.top with
  | none => .ok none
  | some n => loop descend t.bound n
where
  /-- One step down, or the end of the search. -/
  descend (n : NodeId) : Except Fault (Round NodeId (Option NodeId)) :=
    let turn (d : Side) : Round NodeId (Option NodeId) :=
      match t.child n d with
      | none => .done none
      | some c => .again c
    match order n with
    | .lt => .ok (turn .left)
    | .gt => .ok (turn .right)
    | .eq => .ok (.done (some n))

end RedBlack.Tree
