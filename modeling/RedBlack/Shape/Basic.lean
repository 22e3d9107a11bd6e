import RedBlack.Tree.Basic

/-!
# Shapes

A `Shape` is a coloured tree as a value of its own: which node hangs where, and
in which colour.  A shape has no parent links and no stale records, so it says
what a tree looks like, where a `Tree` says how it is stored.

* Views: `top`, `toList`, `postorder`, `size`.
* Moves: `paint`, and the rotation `lift`, which is the one move that changes who
  hangs below whom.
* Storage: `plant` writes the records of a shape into a store, and `Spells` says
  that the records of a tree are those of a shape.  `spells_build` ties the two
  together.
-/

namespace RedBlack

/-- A coloured tree of nodes. -/
inductive Shape where
  | leaf
  | node (color : Color) (left : Shape) (id : NodeId) (right : Shape)
  deriving DecidableEq, Repr, Inhabited

namespace Shape

/-! ## Views -/

/-- The node at the top. -/
def top : Shape → Option NodeId
  | leaf => none
  | node _ _ n _ => some n

/-- The nodes in order. -/
def toList : Shape → List NodeId
  | leaf => []
  | node _ l n r => l.toList ++ n :: r.toList

/-- The nodes, children before their parent. -/
def postorder : Shape → List NodeId
  | leaf => []
  | node _ l n r => l.postorder ++ r.postorder ++ [n]

/-- The number of nodes. -/
def size : Shape → Nat
  | leaf => 0
  | node _ l _ r => l.size + 1 + r.size

/-- Whether the top is red.  A leaf is black. -/
def isRed : Shape → Bool
  | leaf => false
  | node c .. => c = .red

/-- What hangs in a child slot of the top. -/
def slot (d : Side) : Shape → Shape
  | leaf => leaf
  | node _ l _ r => match d with | .left => l | .right => r

/-! ## Moves -/

/-- The shape with `inner` in slot `d` of its top and `outer` in the other. -/
def branch (d : Side) (c : Color) (n : NodeId) (inner outer : Shape) : Shape :=
  match d with
  | .left => node c inner n outer
  | .right => node c outer n inner

/-- Gives the top a colour. -/
def paint (c : Color) : Shape → Shape
  | leaf => leaf
  | node _ l n r => node c l n r

/-- Gives the node in slot `d` of the top a colour. -/
def paintBelow (d : Side) (c : Color) : Shape → Shape
  | leaf => leaf
  | node c' l n r =>
    match d with
    | .left => node c' (l.paint c) n r
    | .right => node c' l n (r.paint c)

/-- A rotation.  The node in slot `d` of the top becomes the top, and the old top
hangs in its other slot.  The two exchange their colours. -/
def lift : Side → Shape → Shape
  | .left, node c (node c' x m y) n z => node c x m (node c' y n z)
  | .right, node c x n (node c' y m z) => node c (node c' x n y) m z
  | _, s => s

/-- Exchanges left and right everywhere. -/
def flip : Shape → Shape
  | leaf => leaf
  | node c l n r => node c r.flip n l.flip

/-- Puts other nodes in the places of all nodes. -/
def rename (f : NodeId → NodeId) : Shape → Shape
  | leaf => leaf
  | node c l n r => node c (l.rename f) (f n) (r.rename f)

/-- A rotation moves no node in the order. -/
@[simp] theorem toList_lift (d : Side) (s : Shape) : (s.lift d).toList = s.toList := by
  unfold lift
  split <;> simp [toList]

@[simp] theorem toList_paint (c : Color) (s : Shape) : (s.paint c).toList = s.toList := by
  cases s <;> rfl

@[simp] theorem toList_paintBelow (d : Side) (c : Color) (s : Shape) :
    (s.paintBelow d c).toList = s.toList := by
  cases s <;> cases d <;> simp [paintBelow, toList]

theorem toList_flip (s : Shape) : s.flip.toList = s.toList.reverse := by
  induction s with
  | leaf => rfl
  | node c l n r ihl ihr => simp [flip, toList, ihl, ihr]

/-- What hangs from the top can be put together again. -/
theorem branch_slot (d : Side) (c : Color) (l : Shape) (n : NodeId) (r : Shape) :
    branch d c n ((node c l n r).slot d) ((node c l n r).slot d.opposite) = node c l n r := by
  cases d <;> rfl

/-! ## Storage -/

/-- Writes the records of a shape that hangs below `parent`. -/
def plant (s : Store) (parent : Option NodeId) : Shape → Store
  | leaf => s
  | node c l n r =>
    let s := s.set n { parent, color := c, left := l.top, right := r.top }
    r.plant (l.plant s (some n)) (some n)

/-- The records of a store are those of a shape that hangs below `parent`. -/
def Hangs (s : Store) (parent : Option NodeId) : Shape → Prop
  | leaf => True
  | node c l n r =>
    s.get n = { parent, color := c, left := l.top, right := r.top } ∧
      l.Hangs s (some n) ∧ r.Hangs s (some n)

/-- Planting writes the records of the nodes of the shape only. -/
theorem get_plant_of_notMem {shape : Shape} {i : NodeId} (h : i ∉ shape.toList)
    (s : Store) (parent : Option NodeId) : (shape.plant s parent).get i = s.get i := by
  induction shape generalizing s parent with
  | leaf => rfl
  | node c l n r ihl ihr =>
    simp only [toList, List.mem_append, List.mem_cons, not_or] at h
    obtain ⟨hl, hn, hr⟩ := h
    rw [plant, ihr hr, ihl hl, Table.get_set, if_neg hn]

/-- Only the records of its nodes matter for what a shape hangs from. -/
theorem Hangs.congr {s s' : Store} {parent : Option NodeId} {shape : Shape}
    (h : shape.Hangs s parent) (hget : ∀ i ∈ shape.toList, s'.get i = s.get i) :
    shape.Hangs s' parent := by
  induction shape generalizing parent with
  | leaf => trivial
  | node c l n r ihl ihr =>
    simp only [toList, List.mem_append, List.mem_cons] at hget
    exact ⟨(hget n (.inr (.inl rfl))).trans h.1,
      ihl h.2.1 fun i hi => hget i (.inl hi), ihr h.2.2 fun i hi => hget i (.inr (.inr hi))⟩

/-- A planted shape hangs where it was planted, if it names no node twice. -/
theorem hangs_plant {shape : Shape} (h : shape.toList.Nodup) (s : Store)
    (parent : Option NodeId) : shape.Hangs (shape.plant s parent) parent := by
  induction shape generalizing s parent with
  | leaf => trivial
  | node c l n r ihl ihr =>
    rw [toList, List.nodup_append] at h
    obtain ⟨hl, hr, hlr⟩ := h
    rw [List.nodup_cons] at hr
    have hnl : n ∉ l.toList := fun hn => hlr n hn n (by simp) rfl
    refine ⟨?_, ?_, ihr hr.2 _ _⟩
    · rw [plant, get_plant_of_notMem hr.1, get_plant_of_notMem hnl, Table.get_set_self]
    · refine Hangs.congr (ihl hl (s.set n ⟨parent, c, l.top, r.top⟩) (some n)) fun i hi => ?_
      exact get_plant_of_notMem (fun hir => hlr i hi i (List.mem_cons_of_mem _ hir) rfl) _ _

end Shape

namespace Tree

/-- Writes the records of a shape and makes it the tree. -/
def build (t : Tree) (shape : Shape) : Tree :=
  { store := shape.plant t.store none, top := shape.top }

/-- The records below the top of a tree are those of a shape, which names no node
twice. -/
structure Spells (t : Tree) (shape : Shape) : Prop where
  top : t.top = shape.top
  hangs : shape.Hangs t.store none
  nodup : shape.toList.Nodup

/-- A tree that was built from a shape spells it. -/
theorem spells_build (t : Tree) {shape : Shape} (h : shape.toList.Nodup) :
    (t.build shape).Spells shape :=
  ⟨rfl, Shape.hangs_plant h t.store none, h⟩

end Tree

end RedBlack
