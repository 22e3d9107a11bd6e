import RedBlack.Tree.Walk

/-!
# Sweeping a tree from both ends

A `Sweep` holds the next node from the front and the next node from the back.
Both ends move towards each other.  The node where they meet is the last one, and
after it the sweep is finished at both ends.
-/

namespace RedBlack

/-- The part of a tree, in order, that has not been taken yet. -/
structure Sweep where
  front : Option NodeId
  back : Option NodeId
  deriving DecidableEq, Repr

namespace Sweep

/-- The sweep with nothing left. -/
def finished : Sweep := ⟨none, none⟩

/-- The whole of a tree. -/
def start (t : Tree) : Except Fault Sweep := do
  return ⟨← t.first, ← t.last⟩

/-- Takes a node from the front. -/
def popFront (t : Tree) (s : Sweep) : Except Fault (Option NodeId × Sweep) :=
  match s.front with
  | none => .ok (none, s)
  | some n =>
    if s.front = s.back then .ok (some n, finished)
    else do return (some n, { s with front := ← t.next n })

/-- Takes a node from the back. -/
def popBack (t : Tree) (s : Sweep) : Except Fault (Option NodeId × Sweep) :=
  match s.back with
  | none => .ok (none, s)
  | some n =>
    if s.front = s.back then .ok (some n, finished)
    else do return (some n, { s with back := ← t.prev n })

/-- Everything that is left, taken from the front at most `rounds` times. -/
def drain (t : Tree) : (rounds : Nat) → Sweep → Except Fault (List NodeId)
  | 0, s => if s.front.isNone then .ok [] else .error .endless
  | rounds + 1, s => do
    match ← s.popFront t with
    | (none, _) => return []
    | (some n, s) => return n :: (← drain t rounds s)

/-- Everything that is left, from front to back. -/
def remaining (t : Tree) (s : Sweep) : Except Fault (List NodeId) := s.drain t t.bound

/-- Everything that is left, taken from the back at most `rounds` times. -/
def drainBack (t : Tree) : (rounds : Nat) → Sweep → Except Fault (List NodeId)
  | 0, s => if s.back.isNone then .ok [] else .error .endless
  | rounds + 1, s => do
    match ← s.popBack t with
    | (none, _) => return []
    | (some n, s) => return n :: (← drainBack t rounds s)

/-- Everything that is left, from back to front. -/
def remainingReverse (t : Tree) (s : Sweep) : Except Fault (List NodeId) := s.drainBack t t.bound

end Sweep

end RedBlack
