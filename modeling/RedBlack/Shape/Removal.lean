import RedBlack.Shape.Path

/-!
# Removal and repairing a deficit, on shapes

Taking a node out of a shape leaves something in its place, and possibly a place
whose paths lack a black node.  `repairDeficit` goes up from that place, one
frame at a time, until the black node is made up for.
-/

namespace RedBlack.Shape

/-- The node over a short place, when what hangs in its other slot has a black
top.  The answer is what comes to hang in the place of that node, and whether its
paths are still short. -/
def balanceSibling (f : Frame) (s : Shape) : Shape × Bool :=
  let d := f.side.opposite
  if (f.other.slot d).isRed then
    (((f.close s).lift d).paintBelow d .black, false)
  else if (f.other.slot f.side).isRed then
    let f := { f with other := f.other.lift f.side }
    (((f.close s).lift d).paintBelow d .black, false)
  else
    let f := { f with other := f.other.paint .red }
    if f.color = .red then ({ f with color := .black }.close s, false) else (f.close s, true)

/-- Repairs a shape in which the paths through `s`, hung into the place, lack a
black node.  At the top nothing is left to repair. -/
def repairDeficit : Path → Shape → Shape
  | [], s => s
  | f :: up, s =>
    match f.other with
    | node .red l m r =>
      let near := (node .red l m r).slot f.side
      let far := (node .red l m r).slot f.side.opposite
      let (repaired, _) := balanceSibling { f with color := .red, other := near } s
      Path.fill (⟨f.side, f.color, m, far⟩ :: up) repaired
    | _ =>
      match balanceSibling f s with
      | (repaired, false) => Path.fill up repaired
      | (repaired, true) => repairDeficit up repaired

/-- Puts into a place what is left of a node of colour `c` whose one slot held
`rest` and whose other slot was empty.  A child turns black; without a child the
place is short if the node was black. -/
def settle (p : Path) (c : Color) (rest : Shape) : Shape :=
  match rest, c with
  | leaf, .red => p.fill leaf
  | leaf, .black => repairDeficit p leaf
  | rest, _ => p.fill (rest.paint .black)

/-- Takes the top of `s` out of the place that `s` hangs in. -/
def removeAt (p : Path) (s : Shape) : Shape :=
  match s with
  | leaf => p.fill leaf
  | node c leaf _ leaf => settle p c leaf
  | node c leaf _ r => p.fill (r.paint c)
  | node c l _ leaf => p.fill (l.paint c)
  | node c l _ r =>
    match leftmost [] r with
    | none => p.fill leaf
    | some (down, c', m, rest) => settle (down ++ ⟨.right, c, m, l⟩ :: p) c' rest

/-- Takes a node out of a shape. -/
def remove (n : NodeId) (s : Shape) : Shape :=
  match s.focus? n with
  | none => s
  | some (p, t) => removeAt p t

end RedBlack.Shape
