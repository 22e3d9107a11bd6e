import RedBlack.Proofs.Tree.Around
import RedBlack.Tree.Check

/-!
# The check ends on all links

Child links can meet again and run in circles, and the recursion of the check has nothing
that grows smaller on its face.  It ends because a node is entered only when it points back
to the node that the check comes from: the nodes on the way down are the ancestors of the
last one, and the chain of ancestors is one and ends at the top.

* `Lineage` is the chain of ancestors of a node.  `Lineage.unique` and `Lineage.nodup` are
  its two properties, and `Descent.length_le` is what follows for the ways down that the
  check can take.
* `Checks` states the answer of the recursion by rules, without a bound on its depth.
  `Checks.settles` says that `checkBelow` gives this answer from some depth on, and
  `checks_checkBelow` that the number of records is such a depth.
* `Calls` is one step of the recursion, and `CallChain` are the calls that are open at some
  moment, which lie on a way down.

The rules count as the check does.  How far the count can go is not a question of depth, and
another module answers it.
-/

namespace RedBlack.Tree

variable {t : Tree} {n m : NodeId} {d : Side} {up : List NodeId} {seen : Nat}

/-! ## Ancestors -/

/-- A node, its parent and so on, up to a node without a parent. -/
inductive Lineage (t : Tree) : List NodeId → Prop where
  | top {n : NodeId} (h : t.parent n = none) : Lineage t [n]
  | child {n p : NodeId} {up : List NodeId} (h : t.parent n = some p)
      (hup : Lineage t (p :: up)) : Lineage t (n :: p :: up)

/-- A node has one chain of ancestors. -/
theorem Lineage.unique {up' : List NodeId} (h : t.Lineage (n :: up)) (h' : t.Lineage (n :: up')) :
    up = up' := by
  induction up generalizing n up' with
  | nil =>
    cases h with
    | top hn =>
      cases h' with
      | top => rfl
      | child hp => rw [hn] at hp; cases hp
  | cons p up ih =>
    cases h with
    | child hp hup =>
      cases h' with
      | top hn => rw [hn] at hp; cases hp
      | child hp' hup' =>
        obtain rfl := Option.some.inj (hp.symm.trans hp')
        rw [ih hup hup']

/-- The ancestors of an ancestor are the rest of the chain. -/
theorem Lineage.drop {down : List NodeId} (h : t.Lineage (down ++ n :: up)) :
    t.Lineage (n :: up) := by
  induction down with
  | nil => exact h
  | cons m down ih =>
    refine ih ?_
    cases down with
    | nil => cases h with | child _ hup => exact hup
    | cons p down => cases h with | child _ hup => exact hup

/-- No node is its own ancestor: it would have a second chain, which is shorter. -/
theorem Lineage.nodup {way : List NodeId} (h : t.Lineage way) : way.Nodup := by
  induction h with
  | top h => exact List.nodup_singleton _
  | @child n p up h hup ih =>
    refine List.nodup_cons.mpr ⟨fun hn => ?_, ih⟩
    obtain ⟨down, rest, hcut⟩ := List.append_of_mem hn
    have hrest : t.Lineage (n :: rest) := by
      rw [hcut] at hup
      exact hup.drop
    have heq : p :: up = rest := (Lineage.child h hup).unique hrest
    have hlength := congrArg List.length hcut
    rw [heq, List.length_append, List.length_cons] at hlength
    omega

/-! ## Ways down -/

/-- The check goes from `n` down to the node in slot `d`, which is in order there. -/
structure Enters (t : Tree) (n : NodeId) (d : Side) (m : NodeId) : Prop where
  child : t.child n d = some m
  parent : t.parent m = some n
  color : ¬(t.color n = .red ∧ t.color m = .red)

/-- The nodes on a way down that the check can take from the top, the lowest first. -/
inductive Descent (t : Tree) : List NodeId → Prop where
  | top {n : NodeId} (h : t.top = some n) (hblack : t.color n = .black)
      (hparent : t.parent n = none) : Descent t [n]
  | enter {n m : NodeId} {d : Side} {up : List NodeId} (h : Descent t (n :: up))
      (henter : t.Enters n d m) : Descent t (m :: n :: up)

/-- The nodes above the lowest one are its ancestors. -/
theorem Descent.lineage {way : List NodeId} (h : t.Descent way) : t.Lineage way := by
  induction h with
  | top _ _ hparent => exact .top hparent
  | enter _ henter ih => exact .child henter.parent ih

/-- All of them have records, since the top is black and the others have a parent. -/
theorem Descent.lt_size {way : List NodeId} (h : t.Descent way) : ∀ i ∈ way, i < t.store.size := by
  induction h with
  | top _ hblack _ =>
    intro i hi
    rw [List.mem_singleton.mp hi]
    exact lt_size_of_color hblack
  | enter _ henter ih =>
    intro i hi
    rcases List.mem_cons.mp hi with rfl | hi
    · exact lt_size_of_parent (by rw [henter.parent]; simp)
    · exact ih i hi

/-- A way down meets no node twice, so that it is no longer than there are records. -/
theorem Descent.length_le {way : List NodeId} (h : t.Descent way) : way.length ≤ t.store.size :=
  length_le_of_nodup h.lineage.nodup h.lt_size

/-! ## The recursion by rules -/

/-- What is checked: the whole tree, a node with all below it, or a slot with all below it.
For the last two `seen` is the count of the nodes that were entered before. -/
inductive Site where
  | whole
  | node (seen : Nat) (n : NodeId)
  | slot (seen : Nat) (n : NodeId) (d : Side)

/-- The answer of the check, where nothing bounds the depth. -/
inductive Checks (t : Tree) : Site → Except Violation Stats → Prop where
  | empty (h : t.top = none) : Checks t .whole (.ok {})
  | redTop {n : NodeId} (h : t.top = some n) (hred : t.color n = .red) :
      Checks t .whole (.error (.redTop n))
  | topHasParent {n : NodeId} (h : t.top = some n) (hblack : t.color n = .black)
      (hparent : t.parent n ≠ none) : Checks t .whole (.error (.topHasParent n))
  | top {n : NodeId} {a : Except Violation Stats} (h : t.top = some n)
      (hblack : t.color n = .black) (hparent : t.parent n = none)
      (hbelow : Checks t (.node 0 n) a) : Checks t .whole a
  | full {seen : Nat} {n : NodeId} (hfull : t.countLimit ≤ seen + 1) :
      Checks t (.node seen n) (.error (.tooDeep n))
  | leftBroken {seen : Nat} {n : NodeId} {v : Violation} (hseen : seen + 1 < t.countLimit)
      (hl : Checks t (.slot (seen + 1) n .left) (.error v)) : Checks t (.node seen n) (.error v)
  | rightBroken {seen : Nat} {n : NodeId} {v : Violation} {l : Stats}
      (hseen : seen + 1 < t.countLimit) (hl : Checks t (.slot (seen + 1) n .left) (.ok l))
      (hr : Checks t (.slot (seen + 1 + l.size) n .right) (.error v)) :
      Checks t (.node seen n) (.error v)
  | uneven {seen : Nat} {n : NodeId} {l r : Stats} (hseen : seen + 1 < t.countLimit)
      (hl : Checks t (.slot (seen + 1) n .left) (.ok l))
      (hr : Checks t (.slot (seen + 1 + l.size) n .right) (.ok r))
      (hne : l.blackHeight ≠ r.blackHeight) :
      Checks t (.node seen n) (.error (.blackHeight n l.blackHeight r.blackHeight))
  | even {seen : Nat} {n : NodeId} {l r : Stats} (hseen : seen + 1 < t.countLimit)
      (hl : Checks t (.slot (seen + 1) n .left) (.ok l))
      (hr : Checks t (.slot (seen + 1 + l.size) n .right) (.ok r))
      (heq : l.blackHeight = r.blackHeight) :
      Checks t (.node seen n) (.ok (.join (t.color n) l r))
  | absent {seen : Nat} {n : NodeId} {d : Side} (h : t.child n d = none) :
      Checks t (.slot seen n d) (.ok {})
  | brokenParent {seen : Nat} {n m : NodeId} {d : Side} (h : t.child n d = some m)
      (hparent : t.parent m ≠ some n) : Checks t (.slot seen n d) (.error (.brokenParent n m))
  | redRed {seen : Nat} {n m : NodeId} {d : Side} (h : t.child n d = some m)
      (hparent : t.parent m = some n) (hred : t.color n = .red ∧ t.color m = .red) :
      Checks t (.slot seen n d) (.error (.redRed n m))
  | enter {seen : Nat} {n m : NodeId} {d : Side} {a : Except Violation Stats}
      (h : t.Enters n d m) (hbelow : Checks t (.node seen m) a) : Checks t (.slot seen n d) a

theorem joined_ok (t : Tree) (n : NodeId) (l : Stats) (right : Stats → Except Violation Stats) :
    t.joined n (.ok l) right = (right l).bind fun r =>
      if l.blackHeight = r.blackHeight then .ok (.join (t.color n) l r)
      else .error (.blackHeight n l.blackHeight r.blackHeight) := rfl

/-- The answer of the check where it goes at most `depth` nodes down. -/
def answer (t : Tree) (depth : Nat) : Site → Except Violation Stats
  | .whole =>
    match t.top with
    | none => .ok {}
    | some n =>
      if t.color n = .red then .error (.redTop n)
      else if (t.parent n).isSome then .error (.topHasParent n)
      else t.checkBelow depth 0 n
  | .node seen n => t.checkBelow depth seen n
  | .slot seen n d => t.checkSlot (t.checkBelow depth seen) n d

theorem answer_node_succ (t : Tree) (depth seen : Nat) (n : NodeId) :
    t.answer (depth + 1) (.node seen n) =
      if seen + 1 < t.countLimit then
        t.joined n (t.answer depth (.slot (seen + 1) n .left)) fun l =>
          t.answer depth (.slot (seen + 1 + l.size) n .right)
      else .error (.tooDeep n) := rfl

theorem checkSlot_of_enters {below : NodeId → Except Violation Stats} (h : t.Enters n d m) :
    t.checkSlot below n d = below m := by
  rw [checkSlot, h.child]
  simp only [h.parent, ne_eq, not_true_eq_false, if_false, if_neg h.color]

/-! ## The rules give the answer of the bounded check -/

/-- From some depth on, the bounded check gives this answer. -/
def Settles (t : Tree) (site : Site) (a : Except Violation Stats) : Prop :=
  ∃ k, ∀ depth, k ≤ depth → t.answer depth site = a

/-- A node settles when its slots do; the right one is not asked when the left one is not in
order. -/
theorem settles_node {l : Except Violation Stats} {r : Stats → Except Violation Stats}
    (hseen : seen + 1 < t.countLimit) (hl : t.Settles (.slot (seen + 1) n .left) l)
    (hr : ∀ st, l = .ok st → t.Settles (.slot (seen + 1 + st.size) n .right) (r st)) :
    t.Settles (.node seen n) (t.joined n l r) := by
  obtain ⟨j, hj⟩ := hl
  cases l with
  | error v =>
    refine ⟨j + 1, fun depth hdepth => ?_⟩
    obtain ⟨depth, rfl⟩ : ∃ k, depth = k + 1 := ⟨depth - 1, by omega⟩
    rw [answer_node_succ, if_pos hseen, hj depth (by omega)]
    rfl
  | ok st =>
    obtain ⟨k, hk⟩ := hr st rfl
    refine ⟨max j k + 1, fun depth hdepth => ?_⟩
    obtain ⟨depth, rfl⟩ : ∃ k, depth = k + 1 := ⟨depth - 1, by omega⟩
    rw [answer_node_succ, if_pos hseen, hj depth (by omega), joined_ok, joined_ok,
      hk depth (by omega)]

/-- Where both slots are in order, the black heights decide. -/
theorem settles_ok {l r : Stats} (hseen : seen + 1 < t.countLimit)
    (hl : t.Settles (.slot (seen + 1) n .left) (.ok l))
    (hr : t.Settles (.slot (seen + 1 + l.size) n .right) (.ok r)) :
    t.Settles (.node seen n) (if l.blackHeight = r.blackHeight then .ok (.join (t.color n) l r)
      else .error (.blackHeight n l.blackHeight r.blackHeight)) := by
  refine settles_node (r := fun _ => .ok r) hseen hl fun st h => ?_
  cases h
  exact hr

theorem Checks.settles {site : Site} {a : Except Violation Stats} (h : t.Checks site a) :
    t.Settles site a := by
  induction h with
  | empty h => exact ⟨0, fun _ _ => by simp only [answer, h]⟩
  | redTop h hred => exact ⟨0, fun _ _ => by simp only [answer, h, hred, if_true]⟩
  | topHasParent h hblack hparent =>
    exact ⟨0, fun _ _ => by simp [answer, h, hblack, Option.isSome_iff_ne_none, hparent]⟩
  | top h hblack hparent _ ih =>
    obtain ⟨k, hk⟩ := ih
    refine ⟨k, fun depth hdepth => ?_⟩
    simpa [answer, h, hblack, hparent] using hk depth hdepth
  | full hfull =>
    refine ⟨1, fun depth hdepth => ?_⟩
    obtain ⟨depth, rfl⟩ : ∃ k, depth = k + 1 := ⟨depth - 1, by omega⟩
    rw [answer_node_succ, if_neg (Nat.not_lt.mpr hfull)]
  | leftBroken hseen _ ihl =>
    exact settles_node (r := fun _ => .ok {}) hseen ihl fun _ h => by cases h
  | @rightBroken _ _ v _ hseen _ _ ihl ihr =>
    refine settles_node (r := fun _ => .error v) hseen ihl fun _ h => ?_
    cases h
    exact ihr
  | uneven hseen _ _ hne ihl ihr =>
    have hnode := settles_ok hseen ihl ihr
    rwa [if_neg hne] at hnode
  | even hseen _ _ heq ihl ihr =>
    have hnode := settles_ok hseen ihl ihr
    rwa [if_pos heq] at hnode
  | absent h => exact ⟨0, fun _ _ => by simp only [answer, checkSlot, h]⟩
  | brokenParent h hparent =>
    exact ⟨0, fun _ _ => by simp only [answer, checkSlot, h, if_pos hparent]⟩
  | redRed h hparent hred =>
    exact ⟨0, fun _ _ => by simp [answer, checkSlot, h, hparent, hred]⟩
  | enter h _ ih =>
    obtain ⟨k, hk⟩ := ih
    refine ⟨k, fun depth hdepth => ?_⟩
    simpa only [answer, checkSlot_of_enters h] using hk depth hdepth

/-- The rules give one answer. -/
theorem Checks.unique {site : Site} {a b : Except Violation Stats} (h : t.Checks site a)
    (h' : t.Checks site b) : a = b := by
  obtain ⟨j, hj⟩ := h.settles
  obtain ⟨k, hk⟩ := h'.settles
  rw [← hj (max j k) (by omega), hk (max j k) (by omega)]

/-! ## The bounded check follows the rules -/

theorem checks_joined {l : Except Violation Stats} {r : Stats → Except Violation Stats}
    (hseen : seen + 1 < t.countLimit) (hl : t.Checks (.slot (seen + 1) n .left) l)
    (hr : ∀ st, l = .ok st → t.Checks (.slot (seen + 1 + st.size) n .right) (r st)) :
    t.Checks (.node seen n) (t.joined n l r) := by
  cases l with
  | error v => exact .leftBroken hseen hl
  | ok l =>
    have hright := hr l rfl
    rw [joined_ok]
    cases hrl : r l with
    | error v =>
      rw [hrl] at hright
      exact .rightBroken hseen hl hright
    | ok st =>
      rw [hrl] at hright
      rw [Except.bind]
      by_cases heq : l.blackHeight = st.blackHeight
      · rw [if_pos heq]
        exact .even hseen hl hright heq
      · rw [if_neg heq]
        exact .uneven hseen hl hright heq

theorem checks_checkSlot {below : NodeId → Except Violation Stats}
    (hbelow : ∀ m, t.Enters n d m → t.Checks (.node seen m) (below m)) :
    t.Checks (.slot seen n d) (t.checkSlot below n d) := by
  cases hm : t.child n d with
  | none =>
    rw [checkSlot, hm]
    exact .absent hm
  | some m =>
    by_cases hparent : t.parent m = some n
    · by_cases hred : t.color n = .red ∧ t.color m = .red
      · have hslot : t.checkSlot below n d = .error (.redRed n m) := by
          simp [checkSlot, hm, hparent, hred]
        rw [hslot]
        exact .redRed hm hparent hred
      · have henters : t.Enters n d m := ⟨hm, hparent, hred⟩
        rw [checkSlot_of_enters henters]
        exact .enter henters (hbelow m henters)
    · rw [checkSlot, hm]
      simp only [ne_eq, hparent, not_false_eq_true, if_true]
      exact .brokenParent hm hparent

/-- At the end of a way down, as many levels suffice as there are records that are not on the
way. -/
theorem checks_checkBelow {depth : Nat} (h : t.Descent (n :: up))
    (hdepth : t.store.size ≤ depth + up.length) :
    t.Checks (.node seen n) (t.checkBelow depth seen n) := by
  induction depth generalizing seen n up with
  | zero =>
    have hlength := h.length_le
    rw [List.length_cons] at hlength
    omega
  | succ depth ih =>
    have hslot : ∀ k d, t.Checks (.slot k n d) (t.checkSlot (t.checkBelow depth k) n d) := by
      intro k d
      refine checks_checkSlot fun m hm => ih (.enter h hm) ?_
      rw [List.length_cons]
      omega
    rw [checkBelow]
    split
    · next hseen => exact checks_joined hseen (hslot _ .left) fun st _ => hslot _ .right
    · next hseen => exact .full (Nat.not_lt.mp hseen)

theorem validate_of_top (h : t.top = some n) (hblack : t.color n = .black)
    (hparent : t.parent n = none) : t.validate = t.checkBelow t.store.size 0 n := by
  simp [validate, h, hblack, hparent]

theorem checks_validate (t : Tree) : t.Checks .whole t.validate := by
  cases h : t.top with
  | none =>
    have hempty : t.validate = .ok {} := by simp only [validate, h]
    rw [hempty]
    exact .empty h
  | some n =>
    cases hcolor : t.color n with
    | red =>
      have hred : t.validate = .error (.redTop n) := by simp [validate, h, hcolor]
      rw [hred]
      exact .redTop h hcolor
    | black =>
      by_cases hparent : t.parent n = none
      · rw [validate_of_top h hcolor hparent]
        exact .top h hcolor hparent (checks_checkBelow (.top h hcolor hparent) (Nat.le_refl _))
      · have htop : t.validate = .error (.topHasParent n) := by
          simp [validate, h, hcolor, Option.isSome_iff_ne_none, hparent]
        rw [htop]
        exact .topHasParent h hcolor hparent

/-! ## Open calls -/

/-- The check of `n`, which starts at the count `seen`, calls that of `m` at the count
`seen'`.  It comes to the right slot when the left one is in order. -/
inductive Calls (t : Tree) (seen : Nat) (n : NodeId) : (seen' : Nat) → (m : NodeId) → Prop where
  | left {m : NodeId} (hseen : seen + 1 < t.countLimit) (h : t.Enters n .left m) :
      Calls t seen n (seen + 1) m
  | right {m : NodeId} {st : Stats} (hseen : seen + 1 < t.countLimit)
      (hleft : t.Checks (.slot (seen + 1) n .left) (.ok st)) (h : t.Enters n .right m) :
      Calls t seen n (seen + 1 + st.size) m

/-- Calls that are open at the same time, the innermost first; that one starts at the count
`seen`. -/
inductive CallChain (t : Tree) : (seen : Nat) → List NodeId → Prop where
  | top {n : NodeId} (h : t.top = some n) (hblack : t.color n = .black)
      (hparent : t.parent n = none) : CallChain t 0 [n]
  | call {seen seen' : Nat} {n m : NodeId} {up : List NodeId}
      (h : CallChain t seen (n :: up)) (hcall : t.Calls seen n seen' m) :
      CallChain t seen' (m :: n :: up)

theorem Calls.enters {seen' : Nat} (h : t.Calls seen n seen' m) : ∃ d, t.Enters n d m := by
  cases h with
  | left _ h => exact ⟨.left, h⟩
  | right _ _ h => exact ⟨.right, h⟩

/-- The open calls are those of the nodes on a way down. -/
theorem CallChain.descent {way : List NodeId} (h : t.CallChain seen way) : t.Descent way := by
  induction h with
  | top h hblack hparent => exact .top h hblack hparent
  | call _ hcall ih =>
    obtain ⟨d, henter⟩ := hcall.enters
    exact .enter ih henter

/-- A node that has the top for a child: the circle is seen before it is entered again, since
the top has no parent. -/
example :
    let t := build {} (.node .black (.node .black .leaf 1 .leaf) 0 .leaf)
    (t.setChild 1 .left (some 0)).validate = .error (.brokenParent 1 0) := by
  decide

end RedBlack.Tree
