import RedBlack.Shape.Basic
import RedBlack.Violation

/-!
# The rules of red-black shapes

What it means for a shape to be red-black, said by its paths and not by a search:
the top is black, no red node has a red child, and from any node all paths to
absent children pass the same number of black nodes.

`violations` lists everything that is wrong with a shape whose nodes have given
parent links, in the order in which a check from the top meets it.
-/

namespace RedBlack.Shape

/-! ## Measures -/

/-- The nodes on the longest path from the top to an absent child. -/
def height : Shape → Nat
  | leaf => 0
  | node _ l _ r => 1 + max l.height r.height

/-- The black nodes on each path from the top to an absent child. -/
def pathWeights : Shape → List Nat
  | leaf => [0]
  | node c l _ r => (l.pathWeights ++ r.pathWeights).map (· + c.weight)

/-- The black nodes on the leftmost path. -/
def blackHeight : Shape → Nat
  | leaf => 0
  | node c l _ _ => l.blackHeight + c.weight

/-- The leftmost path is one of the paths. -/
theorem blackHeight_mem_pathWeights (s : Shape) : s.blackHeight ∈ s.pathWeights := by
  induction s with
  | leaf => simp [blackHeight, pathWeights]
  | node c l n r ihl _ =>
    simp only [blackHeight, pathWeights, List.mem_map, List.mem_append]
    exact ⟨_, .inl ihl, rfl⟩

/-! ## The rules -/

/-- No red node has a red child. -/
def NoRedRed : Shape → Prop
  | leaf => True
  | node c l _ r =>
    (c = .red → l.isRed = false ∧ r.isRed = false) ∧ l.NoRedRed ∧ r.NoRedRed

/-- From any node, all paths to absent children pass the same number of black
nodes. -/
def EvenPaths : Shape → Prop
  | leaf => True
  | node c l n r =>
    (∀ a ∈ (node c l n r).pathWeights, ∀ b ∈ (node c l n r).pathWeights, a = b) ∧
      l.EvenPaths ∧ r.EvenPaths

/-- The shape follows all rules. -/
structure IsRedBlack (s : Shape) : Prop where
  topBlack : s.isRed = false
  noRedRed : s.NoRedRed
  evenPaths : s.EvenPaths

/-! The rules can be tested. -/

instance decidableNoRedRed : (s : Shape) → Decidable s.NoRedRed
  | leaf => .isTrue trivial
  | node c l _ r =>
    have := decidableNoRedRed l
    have := decidableNoRedRed r
    inferInstanceAs
      (Decidable ((c = .red → l.isRed = false ∧ r.isRed = false) ∧ l.NoRedRed ∧ r.NoRedRed))

instance decidableEvenPaths : (s : Shape) → Decidable s.EvenPaths
  | leaf => .isTrue trivial
  | node c l n r =>
    have := decidableEvenPaths l
    have := decidableEvenPaths r
    inferInstanceAs (Decidable
      ((∀ a ∈ (node c l n r).pathWeights, ∀ b ∈ (node c l n r).pathWeights, a = b) ∧
        l.EvenPaths ∧ r.EvenPaths))

instance (s : Shape) : Decidable s.IsRedBlack :=
  decidable_of_iff (s.isRed = false ∧ s.NoRedRed ∧ s.EvenPaths)
    ⟨fun ⟨ht, hr, he⟩ => ⟨ht, hr, he⟩, fun ⟨ht, hr, he⟩ => ⟨ht, hr, he⟩⟩

/-! ## Everything that is wrong -/

/-- What is wrong between a node `n` of colour `c` and what hangs in one of its
slots. -/
def edgeViolations (parentOf : NodeId → Option NodeId) (c : Color) (n : NodeId) :
    Shape → List Violation
  | leaf => []
  | node c' _ m _ =>
    (if parentOf m = some n then [] else [.brokenParent n m]) ++
      if c = .red ∧ c' = .red then [.redRed n m] else []

/-- What is wrong below the top and at the top. -/
def innerViolations (parentOf : NodeId → Option NodeId) : Shape → List Violation
  | leaf => []
  | node c l n r =>
    l.edgeViolations parentOf c n ++ l.innerViolations parentOf ++
      r.edgeViolations parentOf c n ++ r.innerViolations parentOf ++
      if l.blackHeight = r.blackHeight then []
      else [.blackHeight n l.blackHeight r.blackHeight]

/-- Everything that is wrong with a whole shape. -/
def violations (parentOf : NodeId → Option NodeId) : Shape → List Violation
  | leaf => []
  | node c l n r =>
    (if c = .red then [.redTop n] else []) ++
      (if (parentOf n).isSome then [.topHasParent n] else []) ++
      (node c l n r).innerViolations parentOf

end RedBlack.Shape
