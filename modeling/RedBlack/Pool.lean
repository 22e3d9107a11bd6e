import RedBlack.Entries

/-!
# A pool of numbers

A `Pool` keeps 64-bit numbers, any of them more than once, in a tree of elements
that the pool creates by itself.  It gives back the smallest number, the largest
one or the one at the top of its tree, and it can raise all numbers at once.
-/

namespace RedBlack

/-- Numbers in a tree, and all elements that were ever made for them. -/
structure Pool where
  entries : Entries UInt64 := {}
  deriving Repr

namespace Pool

instance : Inhabited Pool := ⟨{}⟩

/-- The tree of the pool. -/
def tree (p : Pool) : Tree := p.entries.tree

/-- The number that a node stands for. -/
def valueOf (p : Pool) (n : NodeId) : UInt64 := (p.entries.value? n).getD 0

/-- Whether the pool holds no number. -/
def isEmpty (p : Pool) : Bool := p.tree.isEmpty

/-- The measures of the tree, or the first rule that is broken. -/
def validate (p : Pool) : Except Violation Stats := p.tree.validate

/-! ## Reading -/

/-- The numbers from the smallest to the largest. -/
def toList (p : Pool) : Except Fault (List UInt64) := do
  return (← (← Sweep.start p.tree).remaining p.tree).map p.valueOf

/-- The numbers from the largest to the smallest. -/
def toListReverse (p : Pool) : Except Fault (List UInt64) := do
  return (← p.tree.toListReverse).map p.valueOf

/-- The number at the top of the tree. -/
def top? (p : Pool) : Option UInt64 := p.tree.top.map p.valueOf

/-! ## Adding and taking -/

/-- Adds a number. -/
def insert (p : Pool) (v : UInt64) : Outcome Pool Unit := (p.entries.insert v).inside Pool.mk

/-- Takes out one occurrence of a number, if there is one. -/
def removeValue (p : Pool) (v : UInt64) : Outcome Pool Unit :=
  (Outcome.ask p (p.entries.find v)).andThen fun found p =>
    match found with
    | none => .error (.refused .noEntry) p
    | some n => (p.entries.remove (some n)).inside Pool.mk

/-- Takes out the number of a node, if there is a node. -/
def take (p : Pool) (n : Option NodeId) : Outcome Pool (Option UInt64) :=
  match n with
  | none => .ok none p
  | some n =>
    ((p.entries.remove (some n)).inside Pool.mk).andThen fun () after =>
      .ok (some (p.valueOf n)) after

/-- Takes out the smallest number. -/
def popFirst (p : Pool) : Outcome Pool (Option UInt64) :=
  (Outcome.ask p p.tree.first).andThen fun n p => p.take n

/-- Takes out the largest number. -/
def popLast (p : Pool) : Outcome Pool (Option UInt64) :=
  (Outcome.ask p p.tree.last).andThen fun n p => p.take n

/-- Takes out the number at the top of the tree. -/
def popTop (p : Pool) : Outcome Pool (Option UInt64) := p.take p.tree.top

/-! ## Raising all numbers -/

/-- Puts a new element in the place of `n`, with its number raised by `shift`. -/
def raise (p : Pool) (shift : UInt64) (n : NodeId) : Outcome Pool Unit :=
  let v := p.valueOf n
  if v.toNat + shift.toNat < UInt64.size then
    let (fresh, e) := p.entries.create (v + shift)
    (e.replace (some n) (some fresh)).inside Pool.mk
  else
    .error .overflow p

/-- Raises the numbers of some nodes, one after the other, up to the first that
fails. -/
def raiseEach (p : Pool) (shift : UInt64) : List NodeId → Outcome Pool Unit
  | [] => .ok () p
  | n :: rest => (p.raise shift n).andThen fun () p => p.raiseEach shift rest

/-- Raises all numbers.  A number that would grow too large ends the call; the
smaller ones are raised by then, and the others stay. -/
def raiseAll (p : Pool) (shift : UInt64) : Outcome Pool Unit :=
  (Outcome.ask p (Sweep.start p.tree >>= Sweep.remaining p.tree)).andThen fun nodes p =>
    p.raiseEach shift nodes

end Pool

end RedBlack
