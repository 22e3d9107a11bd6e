import Mathlib.Logic.Function.Basic
import RedBlack.Entries
import RedBlack.Proofs.Tree.Calls

/-!
# Elements stay sorted, and equal ones in the order of insertion

The values of a tree of elements may be equal without being the same.  Rotations bring
equal values to both sides of a node, so a tree of elements is no strict search tree.
What holds is a property of the list.

* `Roll` is what a caller knows: the elements in order, and when each of them came.
  `insertBehind` is the place of a new element.
* `Entries.Move` is one call, `Allowed` its contract, and `Move.record` keeps the roll.
* `Entries.Keeps` is the invariant: the tree holds the elements of the roll, by value and
  for equal values by the time they came.  `Keeps.step` is one call and `Run.keeps` a run.
* `run_stable` is the result, from an empty tree on.
-/

namespace RedBlack

/-! ## Orders on values -/

instance transOrdOption {α : Type} [Ord α] [Std.TransOrd α] : Std.TransOrd (Option α) where
  eq_swap {a b} := by
    cases a with
    | none => cases b <;> rfl
    | some x =>
      cases b with
      | none => rfl
      | some y => exact Std.OrientedOrd.eq_swap (a := x) (b := y)
  isLE_trans {a b c} hab hbc := by
    cases a with
    | none => cases c <;> rfl
    | some x =>
      cases b with
      | none => cases hab
      | some y =>
        cases c with
        | none => cases hbc
        | some z => exact Std.TransOrd.isLE_trans (a := x) (b := y) hab hbc

instance transOrdTagged : Std.TransOrd Tagged where
  eq_swap {a b} := Std.OrientedOrd.eq_swap (a := a.key) (b := b.key)
  isLE_trans {a b c} := Std.TransOrd.isLE_trans (a := a.key) (b := b.key) (c := c.key)

/-! ## The list of a caller -/

/-- The elements in order, the time at which each of them came, and the time. -/
structure Roll where
  order : List NodeId := []
  stamp : NodeId → Nat := fun _ => 0
  clock : Nat := 0

/-- Puts `n` behind everything that is not greater, and before everything that is. -/
def insertBehind (isGreater : NodeId → Bool) (n : NodeId) (xs : List NodeId) : List NodeId :=
  (xs.filter fun m => !isGreater m) ++ n :: xs.filter isGreater

theorem insertBehind_append {isGreater : NodeId → Bool} {xs ys : List NodeId} (n : NodeId)
    (hxs : ∀ m ∈ xs, isGreater m = false) (hys : ∀ m ∈ ys, isGreater m = true) :
    insertBehind isGreater n (xs ++ ys) = xs ++ n :: ys := by
  have hxs' : xs.filter isGreater = [] := by
    rw [List.filter_eq_nil_iff]
    exact fun m hm h => by simp [hxs m hm] at h
  have hys' : (ys.filter fun m => !isGreater m) = [] := by
    rw [List.filter_eq_nil_iff]
    exact fun m hm h => by simp [hys m hm] at h
  have hkeep : (xs.filter fun m => !isGreater m) = xs :=
    List.filter_eq_self.mpr fun m hm => by simp [hxs m hm]
  have hkeep' : ys.filter isGreater = ys := List.filter_eq_self.mpr hys
  rw [insertBehind, List.filter_append, List.filter_append, hxs', hys', hkeep, hkeep']
  simp

namespace Entries

variable {α : Type}

theorem edit_ok {e : Entries α} {call : Tree → Outcome Tree Unit} {t' : Tree}
    (h : call e.tree = .ok () t') : e.edit call = .ok () { e with tree := t' } := by
  rw [edit, h]
  rfl

/-- One call on a tree of elements. -/
inductive Move (α : Type) where
  /-- Creates an element that is not linked yet. -/
  | create (v : α)
  | setValue (n : NodeId) (v : α)
  | insert (n : NodeId)
  | remove (n : NodeId)
  | replace (old new : NodeId)

variable [Ord α]

namespace Move

/-- Makes the call. -/
def perform (e : Entries α) : Move α → Outcome (Entries α) Unit
  | create v => .ok () (e.create v).2
  | setValue n v => .ok () (e.setValue n v)
  | insert n => e.insertNode (some n)
  | remove n => e.remove (some n)
  | replace old new => e.replace (some old) (some new)

/-- What the caller promises: the value of a linked element is not written, and one
element replaces another only if their values are equal. -/
def Allowed (e : Entries α) (roll : Roll) : Move α → Prop
  | create _ => True
  | setValue n _ => n ∉ roll.order
  | insert n => n < e.values.size ∧ n ∉ roll.order
  | remove n => n ∈ roll.order
  | replace old new =>
    old ∈ roll.order ∧ new < e.values.size ∧ new ∉ roll.order ∧ e.compareNodes new old = .eq

/-- The roll after the call.  A replacement inherits place and time. -/
def record (e : Entries α) (roll : Roll) : Move α → Roll
  | create _ | setValue .. => roll
  | insert n =>
    { order := insertBehind (fun m => e.compareNodes n m = .lt) n roll.order
      stamp := Function.update roll.stamp n roll.clock
      clock := roll.clock + 1 }
  | remove n => { roll with order := roll.order.erase n }
  | replace old new =>
    { roll with
      order := roll.order.replace old new
      stamp := Function.update roll.stamp new (roll.stamp old) }

end Move

/-- The calls lead from one tree and its roll to another, each of them allowed where it
is made. -/
inductive Run : Entries α → Roll → List (Move α) → Entries α → Roll → Prop where
  | nil {e : Entries α} {roll : Roll} : Run e roll [] e roll
  | cons {e e' : Entries α} {roll roll' : Roll} {m : Move α} {rest : List (Move α)}
      (allowed : m.Allowed e roll)
      (run : Run (m.perform e).state (m.record e roll) rest e' roll') :
      Run e roll (m :: rest) e' roll'

/-- The element `m` comes before `k`: its value is smaller, or equal and it came
earlier. -/
def Precedes (e : Entries α) (roll : Roll) (m k : NodeId) : Prop :=
  e.compareNodes m k = .lt ∨ e.compareNodes m k = .eq ∧ roll.stamp m < roll.stamp k

/-- The elements of the roll exist, came before now, and stand in order. -/
structure Ordered (e : Entries α) (roll : Roll) : Prop where
  known : ∀ n ∈ roll.order, n < e.values.size
  past : ∀ n ∈ roll.order, roll.stamp n < roll.clock
  sorted : roll.order.Pairwise (e.Precedes roll)

/-- The tree holds the elements of the roll, and they stand in order. -/
structure Keeps (e : Entries α) (roll : Roll) : Prop extends e.Ordered roll where
  holds : e.tree.Holds roll.order

/-! ## Calls that leave the tree alone -/

variable {e e' : Entries α} {roll : Roll} {n : NodeId}

theorem compareNodes_congr {m k : NodeId} (hm : e'.value? m = e.value? m)
    (hk : e'.value? k = e.value? k) : e'.compareNodes m k = e.compareNodes m k := by
  rw [compareNodes, compareNodes, hm, hk]

/-- Only the values of linked elements matter. -/
theorem Ordered.of_values (h : e.Ordered roll) (hsize : e.values.size ≤ e'.values.size)
    (hvalue : ∀ n ∈ roll.order, e'.value? n = e.value? n) : e'.Ordered roll where
  known n hn := Nat.lt_of_lt_of_le (h.known n hn) hsize
  past := h.past
  sorted := h.sorted.imp_of_mem fun hm hk hmk => by
    rw [Precedes, compareNodes_congr (hvalue _ hm) (hvalue _ hk)]
    exact hmk

omit [Ord α] in
/-- A new element is none of those in the tree. -/
theorem holds_create {xs : List NodeId} (h : e.tree.Holds xs)
    (hknown : ∀ n ∈ xs, n < e.values.size) (v : α) : (e.create v).2.tree.Holds xs :=
  h.congr rfl fun i hi => Tree.record_setRecord_of_ne (Nat.ne_of_lt (hknown i hi))

theorem Keeps.create (h : e.Keeps roll) (v : α) : (e.create v).2.Keeps roll := by
  refine ⟨h.toOrdered.of_values ?_ fun n hn => ?_, holds_create h.holds h.known v⟩
  · simp [Entries.create]
  · have hlt := h.known n hn
    simp [Entries.create, value?, Array.getElem?_push_lt hlt, hlt]

theorem Keeps.setValue (h : e.Keeps roll) (hn : n ∉ roll.order) (v : α) :
    (e.setValue n v).Keeps roll := by
  refine ⟨h.toOrdered.of_values ?_ fun m hm => ?_, h.holds⟩
  · simp [Entries.setValue]
  · have hne : n ≠ m := fun hnm => hn (hnm ▸ hm)
    simp [Entries.setValue, value?, Array.getElem?_setIfInBounds_ne hne]

/-! ## Calls on the tree -/

theorem pairwise_append_cons {R : NodeId → NodeId → Prop} {l r : List NodeId}
    (h : (l ++ r).Pairwise R) (hl : ∀ m ∈ l, R m n) (hr : ∀ k ∈ r, R n k) :
    (l ++ n :: r).Pairwise R := by
  rw [List.pairwise_append] at h ⊢
  obtain ⟨hll, hrr, hlr⟩ := h
  refine ⟨hll, List.pairwise_cons.mpr ⟨hr, hrr⟩, fun m hm k hk => ?_⟩
  rcases List.mem_cons.mp hk with rfl | hk
  · exact hl m hm
  · exact hlr m hm k hk

/-- The order is one of values: how the elements are linked is no matter. -/
theorem Ordered.withTree (h : e.Ordered roll) (t : Tree) : Ordered { e with tree := t } roll :=
  ⟨h.known, h.past, h.sorted⟩

/-- Some of the elements stand in order when all do. -/
theorem Ordered.sublist {xs : List NodeId} (h : e.Ordered roll) (hxs : xs.Sublist roll.order) :
    e.Ordered { roll with order := xs } where
  known n hn := h.known n (hxs.subset hn)
  past n hn := h.past n (hxs.subset hn)
  sorted := h.sorted.sublist hxs

theorem Keeps.remove (h : e.Keeps roll) (hn : n ∈ roll.order) :
    ∃ e', e.remove (some n) = .ok () e' ∧ e'.Keeps (Move.record e roll (.remove n)) := by
  obtain ⟨t', hremove, ht'⟩ := h.holds.remove hn
  have hordered := h.toOrdered.sublist (List.erase_sublist (a := n))
  exact ⟨_, edit_ok hremove, hordered.withTree t', ht'.holds⟩

/-- An element that comes between the others, with the time it came. -/
theorem Ordered.insert {xs ys : List NodeId} {time clock : Nat}
    (h : e.Ordered { roll with order := xs ++ ys }) (hn : n < e.values.size)
    (hnew : n ∉ xs ++ ys) (htime : time < clock) (hclock : roll.clock ≤ clock)
    (hxs : ∀ m ∈ xs, e.compareNodes m n = .lt ∨ e.compareNodes m n = .eq ∧ roll.stamp m < time)
    (hys : ∀ m ∈ ys, e.compareNodes n m = .lt ∨ e.compareNodes n m = .eq ∧ time < roll.stamp m) :
    e.Ordered ⟨xs ++ n :: ys, Function.update roll.stamp n time, clock⟩ := by
  have hstamp : ∀ m ∈ xs ++ ys, Function.update roll.stamp n time m = roll.stamp m :=
    fun m hm => Function.update_of_ne (ne_of_mem_of_not_mem hm hnew) ..
  have hmem : ∀ m ∈ xs ++ n :: ys, m = n ∨ m ∈ xs ++ ys := by
    intro m hm
    simpa [or_left_comm] using hm
  refine ⟨fun m hm => ?_, fun m hm => ?_, pairwise_append_cons ?_ (fun m hm => ?_) fun m hm => ?_⟩
  · rcases hmem m hm with rfl | hm
    · exact hn
    · exact h.known m hm
  · rcases hmem m hm with rfl | hm
    · simpa using htime
    · simp only [hstamp m hm]
      exact Nat.lt_of_lt_of_le (h.past m hm) hclock
  · refine h.sorted.imp_of_mem fun hm hk hmk => ?_
    simpa [Precedes, hstamp _ hm, hstamp _ hk] using hmk
  · simpa [Precedes, hstamp m (List.mem_append_left _ hm)] using hxs m hm
  · simpa [Precedes, hstamp m (List.mem_append_right _ hm)] using hys m hm

variable [Std.TransOrd α]

instance transCmpNodes (e : Entries α) : Std.TransCmp e.compareNodes where
  eq_swap := Std.OrientedOrd.eq_swap
  isLE_trans := Std.TransOrd.isLE_trans

/-- What is greater than an element that comes first is greater than the later ones. -/
theorem Precedes.lt_of_lt {m k : NodeId} (h : e.Precedes roll m k)
    (hm : e.compareNodes n m = .lt) : e.compareNodes n k = .lt := by
  rcases h with h | ⟨h, -⟩
  · exact Std.TransCmp.lt_trans hm h
  · exact Std.TransCmp.lt_of_lt_of_eq hm h

/-- An insertion puts the element behind all that are not greater. -/
theorem Keeps.insert (h : e.Keeps roll) (hknown : n < e.values.size) (hn : n ∉ roll.order) :
    ∃ e', e.insertNode (some n) = .ok () e' ∧ e'.Keeps (Move.record e roll (.insert n)) := by
  obtain ⟨s, hs, hrb, hlist⟩ := h.holds
  have hns : n ∉ s.toList := hlist ▸ hn
  have hsorted : s.toList.Pairwise (e.Precedes roll) := hlist ▸ h.sorted
  have hturn : ∀ m k, e.Precedes roll m k → e.compareNodes n m = .lt →
      e.compareNodes n k = .lt := fun _ _ hmk hm => hmk.lt_of_lt hm
  obtain ⟨hbefore, hafter⟩ := Shape.order_seek hturn hsorted
  obtain ⟨t', hinsert, ht'⟩ := hs.insert hrb e.compareNodes hns
  -- The place on the way down cuts the roll where the element belongs.
  have hcut := hlist.symm.trans (Shape.toList_eq_seek (e.compareNodes n) s)
  generalize (Shape.seek (e.compareNodes n) [] s).before = xs at *
  generalize (Shape.seek (e.compareNodes n) [] s).after = ys at *
  have hordered : e.Ordered ⟨xs ++ n :: ys, Function.update roll.stamp n roll.clock,
      roll.clock + 1⟩ := by
    have hold : e.Ordered { roll with order := xs ++ ys } := hcut ▸ h.toOrdered
    refine hold.insert hknown (hcut ▸ hn) (Nat.lt_succ_self _) (Nat.le_succ _) (fun m hm => ?_)
      fun m hm => .inl (hafter m hm)
    have hpast := hold.past m (List.mem_append_left _ hm)
    cases hmn : e.compareNodes n m with
    | lt => exact absurd hmn (hbefore m hm)
    | eq => exact .inr ⟨Std.OrientedCmp.eq_symm hmn, hpast⟩
    | gt => exact .inl (Std.OrientedCmp.lt_of_gt hmn)
  have hrecord : Move.record e roll (.insert n) =
      ⟨xs ++ n :: ys, Function.update roll.stamp n roll.clock, roll.clock + 1⟩ := by
    rw [Move.record, hcut, insertBehind_append]
    · exact fun m hm => by simpa using hbefore m hm
    · exact fun m hm => by simpa using hafter m hm
  rw [hrecord]
  exact ⟨_, edit_ok hinsert, hordered.withTree t', ht'.holds⟩

/-- A replacement by an equal element inherits place and time. -/
theorem Keeps.replace {old new : NodeId} (h : e.Keeps roll) (hold : old ∈ roll.order)
    (hknown : new < e.values.size) (hnew : new ∉ roll.order)
    (heq : e.compareNodes new old = .eq) :
    ∃ e', e.replace (some old) (some new) = .ok () e' ∧
      e'.Keeps (Move.record e roll (.replace old new)) := by
  obtain ⟨t', hreplace, ht'⟩ := h.holds.replace hold hnew
  refine ⟨_, edit_ok hreplace, Ordered.withTree ?_ t', ht'.holds⟩
  obtain ⟨xs, ys, hcut, hxs⟩ := List.eq_append_cons_of_mem hold
  have hput : roll.order.replace old new = xs ++ new :: ys := by
    rw [hcut, List.replace_append_right hxs, List.replace_cons_self]
  have hsub : (xs ++ ys).Sublist roll.order := by
    rw [hcut]
    exact (List.Sublist.refl xs).append (List.sublist_cons_self old ys)
  have hsorted := h.sorted
  rw [hcut, List.pairwise_append, List.pairwise_cons] at hsorted
  obtain ⟨-, ⟨hafter, -⟩, hbefore⟩ := hsorted
  rw [Move.record, hput]
  refine (h.toOrdered.sublist hsub).insert hknown (fun hn => hnew (hsub.subset hn))
    (h.past old hold) (Nat.le_refl _) (fun m hm => ?_) fun m hm => ?_
  · rw [Std.TransCmp.congr_right heq]
    exact hbefore m hm old List.mem_cons_self
  · rw [Std.TransCmp.congr_left heq]
    exact hafter m hm

/-! ## Whole runs -/

/-- An allowed call succeeds, and leaves what the roll says. -/
theorem Keeps.step {m : Move α} (h : e.Keeps roll) (hm : m.Allowed e roll) :
    ∃ e', m.perform e = .ok () e' ∧ e'.Keeps (m.record e roll) := by
  cases m with
  | create v => exact ⟨_, rfl, h.create v⟩
  | setValue n v => exact ⟨_, rfl, h.setValue hm v⟩
  | insert n => exact h.insert hm.1 hm.2
  | remove n => exact h.remove hm
  | replace old new =>
    obtain ⟨hold, hknown, hnew, heq⟩ := hm
    exact h.replace hold hknown hnew heq

theorem Run.keeps {roll' : Roll} {moves : List (Move α)} (h : Run e roll moves e' roll')
    (he : e.Keeps roll) : e'.Keeps roll' := by
  induction h with
  | nil => exact he
  | cons allowed _ ih =>
    obtain ⟨e₁, hperform, he₁⟩ := he.step allowed
    rw [hperform] at ih
    exact ih he₁

omit [Std.TransOrd α] in
theorem keeps_of_empty (h : e.tree.top = none) : e.Keeps {} where
  known _ hn := by cases hn
  past _ hn := by cases hn
  sorted := .nil
  holds := Tree.holds_nil h

/-- After any run from an empty tree, every further call within the contract succeeds, and
the elements stand as in the roll: by value, and equal values in the order in which they
came. -/
theorem run_stable {moves : List (Move α)} (hempty : e.tree.top = none)
    (h : Run e {} moves e' roll) :
    (∀ m : Move α, m.Allowed e' roll → ∃ e'', m.perform e' = .ok () e'') ∧
      (∃ s, e'.tree.Spells s ∧ s.toList = roll.order) ∧
      roll.order.Pairwise (e'.Precedes roll) := by
  have hkeeps : e'.Keeps roll := h.keeps (keeps_of_empty hempty)
  refine ⟨fun m hm => ?_, ?_, hkeeps.sorted⟩
  · obtain ⟨e'', hperform, -⟩ := hkeeps.step hm
    exact ⟨e'', hperform⟩
  · obtain ⟨s, hs, -, hlist⟩ := hkeeps.holds
    exact ⟨s, hs, hlist⟩

/-- Three equal elements that can be told apart, and a smaller one: the third takes the
place of the first. -/
theorem run_stable_of_tagged :
    ∃ (e' : Entries Tagged) (roll : Roll),
      Run {} {} [.create ⟨5, "first"⟩, .create ⟨5, "second"⟩, .create ⟨5, "third"⟩,
        .create ⟨2, "small"⟩, .insert 0, .insert 1, .insert 3, .replace 0 2, .remove 3,
        .setValue 3 ⟨9, "large"⟩, .insert 3] e' roll ∧
      (∃ s, e'.tree.Spells s ∧ s.toList = roll.order) ∧
      roll.order.Pairwise (e'.Precedes roll) := by
  have hrun : ∃ (e' : Entries Tagged) (roll : Roll),
      Run {} {} [.create ⟨5, "first"⟩, .create ⟨5, "second"⟩, .create ⟨5, "third"⟩,
        .create ⟨2, "small"⟩, .insert 0, .insert 1, .insert 3, .replace 0 2, .remove 3,
        .setValue 3 ⟨9, "large"⟩, .insert 3] e' roll := by
    refine ⟨_, _, .cons trivial (.cons trivial (.cons trivial (.cons trivial (.cons ?_ (.cons ?_
      (.cons ?_ (.cons ?_ (.cons ?_ (.cons ?_ (.cons ?_ .nil))))))))))⟩
    · exact ⟨by decide +kernel, by decide +kernel⟩
    · exact ⟨by decide +kernel, by decide +kernel⟩
    · exact ⟨by decide +kernel, by decide +kernel⟩
    · exact ⟨by decide +kernel, by decide +kernel, by decide +kernel, by decide +kernel⟩
    · exact .head _
    · exact fun hmem => absurd hmem (by decide +kernel)
    · exact ⟨by decide +kernel, by decide +kernel⟩
  obtain ⟨e', roll, h⟩ := hrun
  exact ⟨e', roll, h, (run_stable rfl h).2⟩

end Entries

end RedBlack
