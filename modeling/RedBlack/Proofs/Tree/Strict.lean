import RedBlack.Proofs.Tree.Fields
import RedBlack.Proofs.Tree.Trail
import RedBlack.Tree.Removal

/-!
# The repairs with every link followed

The repairs rely on links that are there: of a red parent they read the parent, of a node that
is short they write the sibling, and the records that a rotation writes are found through links
that were read just before.  Here they stand once more in single reads and writes of fields, with
all nodes given as links that may be absent.  An access follows its link first, and fails when
there is none.

* `Strict.parent`, `Strict.setParent` and so on are the accesses.  Only `Strict.isRed` may be
  asked about an absent link, which is not red.
* `Strict.redRound`, `Strict.deficitRound` and `Strict.splice` are the loops and the splice.
* `Strict.repairRed_some` and `Strict.unlink_some` say that this is the same program.  On any
  records it does the same work, and it fails where a repair lacks a link.
-/

namespace RedBlack

/-- The node that a link leads to. -/
def follow : Option NodeId → Except Fault NodeId
  | none => .error .absentLink
  | some n => .ok n

namespace Tree.Strict

/-! ## Accesses to one field -/

def parent (t : Tree) (n : Option NodeId) : Except Fault (Option NodeId) := do
  return t.parent (← follow n)

def color (t : Tree) (n : Option NodeId) : Except Fault Color := do
  return t.color (← follow n)

def child (t : Tree) (n : Option NodeId) (d : Side) : Except Fault (Option NodeId) := do
  return t.child (← follow n) d

def setParent (t : Tree) (n p : Option NodeId) : Except Fault Tree := do
  return Tree.setParent t (← follow n) p

def setColor (t : Tree) (n : Option NodeId) (c : Color) : Except Fault Tree := do
  return Tree.setColor t (← follow n) c

def setChild (t : Tree) (n : Option NodeId) (d : Side) (c : Option NodeId) :
    Except Fault Tree := do
  return Tree.setChild t (← follow n) d c

/-- Whether there is a node, and it is red. -/
def isRed (t : Tree) (n : Option NodeId) : Except Fault Bool := do
  if n = none then return false
  else return (← color t n) = .red

/-! ## Link moves -/

def adopt (t : Tree) (n p : Option NodeId) : Except Fault Tree := do
  if n = none then return t
  else setParent t n p

def redirect (t : Tree) (old new p : Option NodeId) : Except Fault Tree := do
  if p = none then return t.setTop new
  else if (← child t p .left) = old then setChild t p .left new
  else setChild t p .right new

def swing (t : Tree) (n c : Option NodeId) (d : Side) : Except Fault Tree := do
  let inner ← child t c d.opposite
  let t ← setChild t n d inner
  setChild t c d.opposite n

def liftAbove (t : Tree) (old n : Option NodeId) (c : Color) : Except Fault Tree := do
  let p ← parent t old
  let t ← setParent t n p
  let t ← setColor t n (← color t old)
  let t ← setParent t old n
  let t ← setColor t old c
  redirect t old n p

def sideOf (t : Tree) (n c : Option NodeId) : Except Fault Side := do
  if (← child t n .right) = c then return .right
  else return .left

/-! ## The repair of a red node -/

def liftInner (t : Tree) (p n : Option NodeId) (d : Side) : Except Fault Tree := do
  let inner ← child t n d.opposite
  let t ← swing t p n d
  let t ← adopt t inner p
  setParent t p n

def liftOuter (t : Tree) (g p : Option NodeId) (d : Side) : Except Fault Tree := do
  let inner ← child t p d.opposite
  let t ← swing t g p d
  let t ← adopt t inner g
  liftAbove t g p .red

/-- One round, at a node and its parent. -/
def redRound : Tree × Option NodeId × Option NodeId →
    Except Fault (Round (Tree × Option NodeId × Option NodeId) Tree)
  | (t, n, p) => do
    if p = none then
      let t ← setColor t n .black
      return .done t
    else if (← color t p) = .black then
      return .done t
    else
      let g ← parent t p
      let d ← sideOf t g p
      let u ← child t g d.opposite
      if ← isRed t u then
        let t ← setColor t u .black
        let t ← setColor t p .black
        let t ← setColor t g .red
        return .again (t, g, ← parent t g)
      else if (← child t p d.opposite) = n then
        let t ← liftInner t p n d.opposite
        return .done (← liftOuter t g n d)
      else
        return .done (← liftOuter t g p d)

def repairRed (t : Tree) (n : Option NodeId) : Except Fault Tree := do
  let p ← parent t n
  loop redRound t.bound (t, n, p)

/-! ## The splice -/

def freeLeftmost (t : Tree) (r s p : Option NodeId) : Except Fault Tree := do
  let c ← child t s .right
  let t ← setChild t p .left c
  let t ← setChild t s .right r
  setParent t r s

def takeOver (t : Tree) (n l s p c : Option NodeId) : Except Fault Splice := do
  let t ← setChild t s .left l
  let t ← setParent t l s
  let place ← parent t n
  let placeColor ← color t n
  let t ← redirect t n s place
  if c = none then
    let deficit := if (← color t s) = .black then p else none
    let t ← setParent t s place
    let t ← setColor t s placeColor
    return ⟨t, deficit⟩
  else
    let t ← setParent t c p
    let t ← setColor t c .black
    let t ← setParent t s place
    let t ← setColor t s placeColor
    return ⟨t, none⟩

/-- One step to the left. -/
def advance (t : Tree) : Option NodeId × Option NodeId →
    Except Fault (Round (Option NodeId × Option NodeId) (Option NodeId × Option NodeId))
  | (p, s) => do
    let c ← child t s .left
    if c = none then return .done (p, s)
    else return .again (s, c)

/-- The leftmost node below `r`, which has the left child `below`, comes in the place of `n`. -/
def takeLeftmost (t : Tree) (n l r below : Option NodeId) : Except Fault Splice := do
  let (p, s) ← loop (advance t) t.bound (r, below)
  let c ← child t s .right
  let t ← freeLeftmost t r s p
  takeOver t n l s p c

def splice (t : Tree) (n : Option NodeId) : Except Fault Splice := do
  let r ← child t n .right
  let l ← child t n .left
  if l = none then
    let place ← parent t n
    let placeColor ← color t n
    let t ← redirect t n r place
    if r = none then
      return ⟨t, if placeColor = .black then place else none⟩
    else
      let t ← setParent t r place
      let t ← setColor t r placeColor
      return ⟨t, none⟩
  else if r = none then
    let place ← parent t n
    let t ← setParent t l place
    let t ← setColor t l (← color t n)
    let t ← redirect t n l place
    return ⟨t, none⟩
  else
    let below ← child t r .left
    if below = none then
      takeOver t n l r r (← child t r .right)
    else
      takeLeftmost t n l r below

/-! ## The repair of a deficit -/

def lowerShort (t : Tree) (p s : Option NodeId) (d : Side) :
    Except Fault (Tree × Option NodeId) := do
  let near ← child t s d.opposite
  let t ← swing t p s d
  let t ← setParent t near p
  return (← liftAbove t p s .red, near)

def liftNear (t : Tree) (p s near : Option NodeId) (d : Side) : Except Fault Tree := do
  let inner ← child t near d
  let t ← swing t s near d.opposite
  let t ← setChild t p d near
  adopt t inner s

def closeDeficit (t : Tree) (p s far : Option NodeId) (d : Side) : Except Fault Tree := do
  let near ← child t s d.opposite
  let t ← swing t p s d
  let t ← setParent t far s
  let t ← setColor t far .black
  let t ← adopt t near p
  liftAbove t p s .black

def balanceSibling (t : Tree) (p s : Option NodeId) (d : Side) :
    Except Fault (Round (Tree × Option NodeId × Option NodeId) Tree) := do
  let far ← child t s d
  if ← isRed t far then
    return .done (← closeDeficit t p s far d)
  else
    let near ← child t s d.opposite
    if ← isRed t near then
      let t ← liftNear t p s near d
      return .done (← closeDeficit t p near s d)
    else
      let t ← setColor t s .red
      if (← color t p) = .red then
        return .done (← setColor t p .black)
      else
        let g ← parent t p
        if g = none then return .done t
        else return .again (t, g, p)

/-- One round, at a node and the child of it that is short. -/
def deficitRound : Tree × Option NodeId × Option NodeId →
    Except Fault (Round (Tree × Option NodeId × Option NodeId) Tree)
  | (t, p, n) => do
    let d := (← sideOf t p n).opposite
    let s ← child t p d
    if (← color t s) = .red then
      let (t, s) ← lowerShort t p s d
      balanceSibling t p s d
    else
      balanceSibling t p s d

def repairDeficit (t : Tree) (p : Option NodeId) : Except Fault Tree :=
  loop deficitRound t.bound (t, p, none)

def unlink (t : Tree) (n : Option NodeId) : Except Fault Tree := do
  let spliced ← splice t n
  if spliced.deficit = none then return spliced.tree
  else repairDeficit spliced.tree spliced.deficit

/-! ## The same program -/

section Accesses

variable (t : Tree) (n : NodeId) (p : Option NodeId) (d : Side) (color' : Color)

@[simp] theorem parent_some : parent t (some n) = .ok (t.parent n) := rfl

@[simp] theorem color_some : color t (some n) = .ok (t.color n) := rfl

@[simp] theorem child_some : child t (some n) d = .ok (t.child n d) := rfl

@[simp] theorem setParent_some : setParent t (some n) p = .ok (Tree.setParent t n p) := rfl

@[simp] theorem setColor_some : setColor t (some n) color' = .ok (Tree.setColor t n color') := rfl

@[simp] theorem setChild_some : setChild t (some n) d p = .ok (Tree.setChild t n d p) := rfl

/-- An access that found its node hands over what it read or wrote. -/
@[simp] theorem ok_bind {α β : Type} (a : α) (next : α → Except Fault β) :
    (Except.ok a >>= next) = next a := rfl

@[simp] theorem pure_eq {α : Type} (a : α) : (pure a : Except Fault α) = .ok a := rfl

@[simp] theorem isRed_none : isRed t none = .ok false := rfl

@[simp] theorem isRed_some : isRed t (some n) = .ok (decide (t.color n = .red)) := rfl

end Accesses

section Moves

variable (t : Tree) (n c old : NodeId) (q p : Option NodeId) (d : Side) (color' : Color)

@[simp] theorem adopt_some : adopt t q (some n) = .ok (t.adopt q n) := by
  cases q <;> rfl

@[simp] theorem redirect_some : redirect t (some old) q p = .ok (t.redirect old q p) := by
  cases p with
  | none => rfl
  | some p =>
    simp only [redirect, Tree.redirect, child_some, ok_bind, setChild_some, reduceCtorEq, if_false]
    split <;> rfl

@[simp] theorem swing_some : swing t (some n) (some c) d = .ok (t.swing n c d) := rfl

@[simp] theorem liftAbove_some :
    liftAbove t (some old) (some n) color' = .ok (t.liftAbove old n color') := by
  simp [liftAbove, Tree.liftAbove]

@[simp] theorem sideOf_some : sideOf t (some n) q = .ok (t.sideOf n q) := by
  simp only [sideOf, Tree.sideOf, child_some, ok_bind, pure_eq]
  split <;> rfl

@[simp] theorem liftInner_some :
    liftInner t (some n) (some c) d = .ok (t.liftInner n c d) := by
  simp [liftInner, Tree.liftInner]

@[simp] theorem liftOuter_some :
    liftOuter t (some n) (some c) d = .ok (t.liftOuter n c d) := by
  simp [liftOuter, Tree.liftOuter]

end Moves

/-! ### The rounds -/

/-- The state of the repair of a red node, with the parent read beforehand. -/
def withParent (x : Tree × NodeId) : Tree × Option NodeId × Option NodeId :=
  (x.1, some x.2, x.1.parent x.2)

/-- The state of the repair of a deficit, as links. -/
def atLink (x : Tree × NodeId × Option NodeId) : Tree × Option NodeId × Option NodeId :=
  (x.1, some x.2.1, x.2.2)

/-- Whether a child is red, and what it is then. -/
theorem isRed_child (t : Tree) (n : NodeId) (d : Side) :
    isRed t (t.child n d) = .ok (t.redChild? n d).isSome ∧
      ∀ c, t.redChild? n d = some c → t.child n d = some c := by
  rw [redChild?]
  cases t.child n d with
  | none => simp
  | some m =>
    by_cases hm : t.color m = .red
    · simp [Option.filter, hm]
    · simp [Option.filter, hm]

theorem redRound_withParent (x : Tree × NodeId) :
    redRound (withParent x) = (Tree.redRound x).map (Round.map withParent id) := by
  obtain ⟨t, n⟩ := x
  cases hp : t.parent n with
  | none => simp [redRound, Tree.redRound, withParent, hp, Except.map, Round.map]
  | some p =>
    by_cases hblack : t.color p = .black
    · simp [redRound, Tree.redRound, withParent, hp, hblack, Except.map, Round.map]
    cases hg : t.parent p with
    | none =>
      simp only [redRound, Tree.redRound, withParent, hp, hblack, hg, parent_some, color_some,
        ok_bind, reduceCtorEq, if_false]
      rfl
    | some g =>
      obtain ⟨hred, hchild⟩ := isRed_child t g (t.sideOf g (some p)).opposite
      simp only [redRound, Tree.redRound, withParent, hp, hblack, hg, parent_some, color_some,
        ok_bind, reduceCtorEq, if_false, sideOf_some, child_some, hred]
      cases hu : t.redChild? g (t.sideOf g (some p)).opposite with
      | some u =>
        simp only [hchild u hu, Option.isSome_some, if_true, setColor_some, ok_bind]
        rfl
      | none =>
        simp only [Option.isSome_none, Bool.false_eq_true, if_false, liftInner_some,
          liftOuter_some, ok_bind]
        split <;> rfl

theorem repairRed_some (t : Tree) (n : NodeId) : repairRed t (some n) = t.repairRed n := by
  have hloop := loop_map redRound_withParent t.bound (t, n)
  rw [repairRed, parent_some, ok_bind, Tree.repairRed]
  refine hloop.trans ?_
  cases loop Tree.redRound t.bound (t, n) <;> rfl

/-! ### The splice -/

section Order

variable (t : Tree) (n old : NodeId) (p q place : Option NodeId) (d : Side) (c : Color)

theorem setChild_setParent (i : NodeId) :
    Tree.setChild (Tree.setParent t n p) i d q = Tree.setParent (Tree.setChild t i d q) n p := by
  have hwrites : ∀ r : Record,
      ({ r with parent := p } : Record).setChild d q = { r.setChild d q with parent := p } := by
    cases d <;> exact fun _ => rfl
  have hcomm := Table.modify_comm (f := fun r : Record => { r with parent := p })
    (g := fun r => r.setChild d q) t.store n i fun r => (hwrites r).symm
  rw [Tree.setChild, Tree.setParent, Tree.setParent, Tree.setChild, hcomm]

theorem setChild_setColor (i : NodeId) :
    Tree.setChild (Tree.setColor t n c) i d q = Tree.setColor (Tree.setChild t i d q) n c := by
  have hwrites : ∀ r : Record,
      ({ r with color := c } : Record).setChild d q = { r.setChild d q with color := c } := by
    cases d <;> exact fun _ => rfl
  have hcomm := Table.modify_comm (f := fun r : Record => { r with color := c })
    (g := fun r => r.setChild d q) t.store n i fun r => (hwrites r).symm
  rw [Tree.setChild, Tree.setColor, Tree.setColor, Tree.setChild, hcomm]

/-- The place of a node is written in a child slot, so that it does not matter when its parent
link and its colour are. -/
theorem redirect_setColor_setParent :
    (Tree.setColor (Tree.setParent t n p) n c).redirect old q place =
      Tree.setColor (Tree.setParent (t.redirect old q place) n p) n c := by
  cases place with
  | none => rfl
  | some i =>
    simp only [Tree.redirect, child_setParent, child_setColor, setChild_setColor,
      setChild_setParent]
    split <;> rfl

end Order

theorem freeLeftmost_some (t : Tree) (r s p : NodeId) :
    freeLeftmost t (some r) (some s) (some p) = .ok (t.freeLeftmost r s p) := by
  simp [freeLeftmost, Tree.freeLeftmost]

theorem takeOver_some (t : Tree) (n l s p : NodeId) (c : Option NodeId) :
    takeOver t (some n) (some l) (some s) (some p) c = .ok (t.takeOver n l s p c) := by
  cases c with
  | none => simp [takeOver, Tree.takeOver]
  | some c => simp [takeOver, Tree.takeOver]

/-- A node and a child of it, as links. -/
def linkPair (x : NodeId × NodeId) : Option NodeId × Option NodeId := (some x.1, some x.2)

theorem advance_linkPair (t : Tree) (x : NodeId × NodeId) :
    advance t (linkPair x) =
      (leftmostBelow.advance t x).map (Round.map linkPair linkPair) := by
  obtain ⟨p, s⟩ := x
  cases hc : t.child s .left with
  | none => simp [advance, leftmostBelow.advance, linkPair, hc, Except.map, Round.map]
  | some c => simp [advance, leftmostBelow.advance, linkPair, hc, Except.map, Round.map]

theorem takeLeftmost_some (t : Tree) (n l r b : NodeId) :
    takeLeftmost t (some n) (some l) (some r) (some b) =
      (t.leftmostBelow r b).map fun (p, s) =>
        (t.freeLeftmost r s p).takeOver n l s p (t.child s .right) := by
  have hloop : loop (advance t) t.bound (some r, some b) =
      (t.leftmostBelow r b).map linkPair := loop_map (advance_linkPair t) t.bound (r, b)
  cases hend : t.leftmostBelow r b with
  | error fault =>
    rw [takeLeftmost, hloop, hend]
    rfl
  | ok x =>
    obtain ⟨p, s⟩ := x
    rw [hend, Except.map, linkPair] at hloop
    rw [takeLeftmost, hloop, ok_bind]
    dsimp only
    rw [child_some, ok_bind, freeLeftmost_some, ok_bind, takeOver_some, Except.map]

theorem splice_some (t : Tree) (n : NodeId) : splice t (some n) = t.splice n := by
  cases hl : t.child n .left with
  | none =>
    cases hr : t.child n .right with
    | none => simp [splice, Tree.splice, hl, hr, dropLeaf]
    | some r => simp [splice, Tree.splice, hl, hr, promote]
  | some l =>
    cases hr : t.child n .right with
    | none => simp [splice, Tree.splice, hl, hr, promote, redirect_setColor_setParent]
    | some r =>
      cases hb : t.child r .left with
      | none => simp [splice, Tree.splice, hl, hr, hb, takeOver_some]
      | some b =>
        simp only [splice, Tree.splice, child_some, ok_bind, hl, hr, hb, reduceCtorEq, if_false,
          takeLeftmost_some]
        cases t.leftmostBelow r b <;> rfl

/-! ### The repair of a deficit -/

theorem lowerShort_some (t : Tree) (p s : NodeId) (d : Side) :
    lowerShort t (some p) (some s) d = (t.lowerShort p s d).map fun x => (x.1, some x.2) := by
  cases hn : t.child s d.opposite with
  | none =>
    simp only [lowerShort, Tree.lowerShort, child_some, ok_bind, hn, swing_some]
    rfl
  | some near => simp [lowerShort, Tree.lowerShort, hn, Except.map]

theorem liftNear_some (t : Tree) (p s near : NodeId) (d : Side) :
    liftNear t (some p) (some s) (some near) d = .ok (t.liftNear p s near d) := by
  simp [liftNear, Tree.liftNear]

theorem closeDeficit_some (t : Tree) (p s far : NodeId) (d : Side) :
    closeDeficit t (some p) (some s) (some far) d = .ok (t.closeDeficit p s far d) := by
  simp [closeDeficit, Tree.closeDeficit]

theorem balanceSibling_some (t : Tree) (p s : NodeId) (d : Side) :
    balanceSibling t (some p) (some s) d = .ok ((t.balanceSibling p s d).map atLink id) := by
  obtain ⟨hfarRed, hfar⟩ := isRed_child t s d
  obtain ⟨hnearRed, hnear⟩ := isRed_child t s d.opposite
  simp only [balanceSibling, Tree.balanceSibling, child_some, ok_bind, hfarRed, hnearRed]
  cases hf : t.redChild? s d with
  | some far => simp [hfar far hf, closeDeficit_some, Round.map]
  | none =>
    cases hn : t.redChild? s d.opposite with
    | some near => simp [hnear near hn, liftNear_some, closeDeficit_some, Round.map]
    | none =>
      by_cases hred : (t.setColor s .red).color p = .red
      · simp [Round.map, hred]
      · cases hg : t.parent p with
        | none => simp [Round.map, hred, hg]
        | some g => simp [Round.map, hred, hg, atLink]

theorem deficitRound_atLink (x : Tree × NodeId × Option NodeId) :
    deficitRound (atLink x) = (Tree.deficitRound x).map (Round.map atLink id) := by
  obtain ⟨t, p, n⟩ := x
  cases hs : t.child p (t.sideOf p n).opposite with
  | none =>
    simp only [deficitRound, Tree.deficitRound, atLink, sideOf_some, ok_bind, child_some, hs]
    rfl
  | some s =>
    by_cases hred : t.color s = .red
    · simp only [deficitRound, Tree.deficitRound, atLink, sideOf_some, ok_bind, child_some, hs,
        color_some, hred, if_true, lowerShort_some]
      cases t.lowerShort p s (t.sideOf p n).opposite with
      | error fault => rfl
      | ok y =>
        simp only [Except.map, ok_bind, balanceSibling_some]
        rfl
    · simp [deficitRound, Tree.deficitRound, atLink, hs, hred, balanceSibling_some, Except.map]

theorem repairDeficit_some (t : Tree) (p : NodeId) :
    repairDeficit t (some p) = t.repairDeficit p := by
  have hloop := loop_map deficitRound_atLink t.bound (t, p, none)
  refine hloop.trans ?_
  rw [Tree.repairDeficit]
  cases loop Tree.deficitRound t.bound (t, p, none) <;> rfl

theorem unlink_some (t : Tree) (n : NodeId) : unlink t (some n) = t.unlink n := by
  rw [unlink, splice_some, Tree.unlink]
  cases t.splice n with
  | error fault => rfl
  | ok spliced =>
    cases hdeficit : spliced.deficit with
    | none => simp [hdeficit]
    | some p => simp [hdeficit, repairDeficit_some]

end Tree.Strict

end RedBlack
