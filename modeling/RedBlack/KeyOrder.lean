/-!
# Ways to order keyed items

Nodes of a tree can stand for items with a key and a number of their own.  A
`KeyOrder` is a way to compare two such items.  Not every one of them is an order
that a sorted tree could use: a tree takes whatever answers it gets.
-/

namespace RedBlack

/-- What a comparison sees of an element: its key and its own number. -/
structure KeyedItem where
  key : Int
  id : Int
  deriving DecidableEq, Repr

/-- A way to compare two items. -/
inductive KeyOrder where
  /-- By key, upwards. -/
  | byKey
  /-- By key, downwards. -/
  | descending
  /-- By number, upwards. -/
  | byId
  /-- By the last decimal digit of the key, which for a negative key is counted
  up from the next lower multiple of ten. -/
  | byLastDigit
  /-- The same answer for any two items. -/
  | always (answer : Ordering)
  deriving DecidableEq, Repr

/-- How the item `a` stands to the item `b`. -/
def KeyOrder.compare (o : KeyOrder) (a b : KeyedItem) : Ordering :=
  match o with
  | byKey => Ord.compare a.key b.key
  | descending => Ord.compare b.key a.key
  | byId => Ord.compare a.id b.id
  | byLastDigit => Ord.compare (a.key % 10) (b.key % 10)
  | always answer => answer

end RedBlack
