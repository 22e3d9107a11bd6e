import RedBlack.Shape.Basic

/-!
# Places in a shape

A `Frame` is one node seen from below: the slot that one came from, and what
hangs in the other slot.  A `Path` lists the frames from some place up to the
top, so that the innermost one comes first, and `Path.fill` puts a shape back
into that place.
-/

namespace RedBlack

/-- A node over a place that is left open in one of its slots. -/
structure Frame where
  /-- The open slot. -/
  side : Side
  color : Color
  id : NodeId
  /-- What hangs in the other slot. -/
  other : Shape
  deriving DecidableEq, Repr

/-- Hangs a shape into the open slot. -/
def Frame.close (f : Frame) (s : Shape) : Shape := .branch f.side f.color f.id s f.other

/-- The frames over a place, from the innermost to the top. -/
abbrev Path := List Frame

namespace Path

/-- The whole shape, with `s` in the open place. -/
def fill : Path → Shape → Shape
  | [], s => s
  | f :: up, s => fill up (f.close s)

/-- The nodes in order before the open place. -/
def before : Path → List NodeId
  | [] => []
  | f :: up =>
    match f.side with
    | .left => before up
    | .right => before up ++ f.other.toList ++ [f.id]

/-- The nodes in order after the open place. -/
def after : Path → List NodeId
  | [] => []
  | f :: up =>
    match f.side with
    | .left => f.id :: f.other.toList ++ after up
    | .right => after up

/-- In order, a place has its nodes before it and after it. -/
theorem toList_fill (p : Path) (s : Shape) :
    (fill p s).toList = before p ++ s.toList ++ after p := by
  induction p generalizing s with
  | nil => simp [fill, before, after]
  | cons f up ih =>
    cases h : f.side <;> simp [fill, ih, before, after, Frame.close, Shape.branch, Shape.toList, h]

end Path

theorem Frame.toList_close (f : Frame) (s : Shape) :
    (f.close s).toList = Path.before [f] ++ s.toList ++ Path.after [f] :=
  Path.toList_fill [f] s

namespace Shape

/-- The place of a node, and what hangs there. -/
def focus? (n : NodeId) (s : Shape) : Option (Path × Shape) := go [] s
where
  /-- Searches below a place. -/
  go (up : Path) : Shape → Option (Path × Shape)
    | leaf => none
    | node c l m r =>
      if m = n then some (up, node c l m r)
      else (go (⟨.left, c, m, r⟩ :: up) l).or (go (⟨.right, c, m, l⟩ :: up) r)

/-- A place that was found holds what was there. -/
theorem fill_of_focus? {n : NodeId} {s t : Shape} {p : Path} (h : s.focus? n = some (p, t)) :
    p.fill t = s := by
  have key : ∀ (s : Shape) (up : Path), focus?.go n up s = some (p, t) → p.fill t = up.fill s := by
    intro s
    induction s with
    | leaf => intro up h; simp [focus?.go] at h
    | node c l m r ihl ihr =>
      intro up h
      rw [focus?.go] at h
      split at h
      · obtain ⟨rfl, rfl⟩ := Prod.mk.inj (Option.some.inj h)
        rfl
      · rcases Option.or_eq_some_iff.mp h with hl | ⟨-, hr⟩
        · exact ihl _ hl
        · exact ihr _ hr
  exact key s [] h

/-- The leftmost node of a shape below a place: its place, its colour, its name,
and what hangs in its right slot. -/
def leftmost (up : Path) : Shape → Option (Path × Color × NodeId × Shape)
  | leaf => none
  | node c leaf n r => some (up, c, n, r)
  | node c l n r => leftmost (⟨.left, c, n, r⟩ :: up) l

end Shape

end RedBlack
