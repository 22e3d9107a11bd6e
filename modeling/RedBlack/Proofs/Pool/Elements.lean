import RedBlack.Pool
import RedBlack.Proofs.Entries.Runs
import RedBlack.Proofs.Tree.Lookup
import RedBlack.Proofs.Tree.Sweep

/-!
# The elements of a pool

A pool keeps its numbers by elements, and callers see the numbers only.  This module says what
the calls of a pool do to its elements: where in the tree they stand, and which numbers they
stand for.

* `Tree.Holds.walks` and `Tree.Holds.sweep` read a tree as the list of its nodes.
* `Pool.Lists` says which elements are in the tree, in order, whatever their numbers are.
  `Pool.Ascends` says that their numbers ascend.
* `Lists.find_some` asks for no order: what is found has the number that was looked for.
* `Lists.insert`, `Lists.remove` and `Lists.find` are the calls with one number.  The first one
  is a call on a tree of elements, whose roll is made up by `Lists.exists_roll`.
-/

namespace RedBlack

/-! ## A tree as the list of its nodes -/

namespace Tree

variable {t : Tree} {xs : List NodeId}

theorem Holds.walks (h : t.Holds xs) : Walks xs t.first t.last t.next t.prev := by
  obtain ⟨s, hs, -, rfl⟩ := h
  exact hs.walks

theorem Holds.isEmpty_iff (h : t.Holds xs) : t.isEmpty = true ↔ xs = [] := by
  rw [isEmpty, Option.isNone_iff_eq_none, h.top_eq_none_iff]

theorem Holds.sweep (h : t.Holds xs) : (Sweep.start t >>= Sweep.remaining t) = .ok xs := by
  have hwalks := h.walks
  obtain ⟨s, hs, -, rfl⟩ := h
  have hspans : Sweep.Spans ⟨s.toList.head?, s.toList.getLast?⟩ .left s.toList := ⟨rfl, rfl⟩
  have hall : s.toList = [] ++ s.toList ++ [] := (List.append_nil _).symm
  rw [Sweep.start, hwalks.first, hwalks.last]
  exact Sweep.drain_eq hs hall hspans hs.length_le_bound

end Tree

namespace Entries

variable {α : Type} {e : Entries α}

theorem values_edit {e' : Entries α} {call : Tree → Outcome Tree Unit}
    (h : e.edit call = .ok () e') : e'.values = e.values := by
  rw [edit] at h
  cases hcall : call e.tree <;> rw [hcall] at h <;> cases h
  rfl

end Entries

namespace Pool

variable {p p' : Pool} {xs : List NodeId} {n : NodeId} {v : UInt64}

/-! ## The elements in the tree -/

/-- The elements in the tree are `xs`, in order, and all of them have a number. -/
structure Lists (p : Pool) (xs : List NodeId) : Prop where
  holds : p.tree.Holds xs
  known : ∀ n ∈ xs, n < p.entries.values.size

/-- The numbers of the elements ascend. -/
def Ascends (p : Pool) (xs : List NodeId) : Prop := (xs.map p.valueOf).Pairwise (· ≤ ·)

theorem Lists.value?_eq (h : p.Lists xs) (hn : n ∈ xs) :
    p.entries.value? n = some (p.valueOf n) := by
  rw [valueOf, Entries.value?, Array.getElem?_eq_getElem (h.known n hn)]
  rfl

theorem Lists.compareNodes_eq {m : NodeId} (h : p.Lists xs) (hn : n ∈ xs) (hm : m ∈ xs) :
    p.entries.compareNodes n m = compare (p.valueOf n) (p.valueOf m) := by
  rw [Entries.compareNodes, h.value?_eq hn, h.value?_eq hm]
  rfl

/-- The numbers of a pool are those of its elements. -/
theorem toList_eq (h : p.tree.Holds xs) : p.toList = .ok (xs.map p.valueOf) := by
  rw [Pool.toList, ← bind_assoc, h.sweep]
  rfl

/-- A new element has the number it was made for, and those before it keep theirs. -/
theorem valueOf_of_push (h : p'.entries.values = p.entries.values.push v) :
    p'.valueOf p.entries.values.size = v ∧
      ∀ n, n < p.entries.values.size → p'.valueOf n = p.valueOf n := by
  simp only [valueOf, Entries.value?, h]
  refine ⟨by simp, fun n hn => ?_⟩
  rw [Array.getElem?_push_lt hn, Array.getElem?_eq_getElem hn]

/-- The new element is none of those in the tree. -/
theorem Lists.fresh (h : p.Lists xs) : p.entries.values.size ∉ xs :=
  fun hn => Nat.lt_irrefl _ (h.known _ hn)

/-! ## Inserting

A pool does not remember when its elements came.  Where the numbers ascend, the places of the
elements serve as their times, and the elements are a roll. -/

theorem Lists.exists_roll (h : p.Lists xs) (hasc : p.Ascends xs) :
    ∃ roll, roll.order = xs ∧ p.entries.Keeps roll := by
  refine ⟨⟨xs, fun n => xs.idxOf n, xs.length⟩, rfl, ⟨h.known, ?_, ?_⟩, h.holds⟩
  · exact fun n hn => List.idxOf_lt_length_of_mem hn
  · rw [Ascends, List.pairwise_map] at hasc
    rw [List.pairwise_iff_getElem] at hasc ⊢
    intro i j hi hj hij
    have hplace : ∀ k (hk : k < xs.length), xs.idxOf xs[k] = k :=
      fun k hk => h.holds.nodup.idxOf_getElem k hk
    rw [Entries.Precedes, h.compareNodes_eq (List.getElem_mem hi) (List.getElem_mem hj)]
    have hle := Std.isLE_compare.mpr (hasc i j hi hj hij)
    rcases Ordering.isLE_iff_eq_lt_or_eq_eq.mp hle with hlt | heq
    · exact .inl hlt
    · exact .inr ⟨heq, by simpa only [hplace] using hij⟩

theorem Lists.ascends_of_sorted {roll : Roll} (h : p.Lists xs)
    (hsorted : xs.Pairwise (p.entries.Precedes roll)) : p.Ascends xs := by
  rw [Ascends, List.pairwise_map]
  refine hsorted.imp_of_mem fun hn hm hnm => ?_
  rw [Entries.Precedes, h.compareNodes_eq hn hm] at hnm
  rw [← Std.isLE_compare, Ordering.isLE_iff_eq_lt_or_eq_eq]
  exact hnm.imp_right And.left

theorem perm_insertBehind (isGreater : NodeId → Bool) (n : NodeId) (xs : List NodeId) :
    (insertBehind isGreater n xs).Perm (n :: xs) := by
  rw [insertBehind]
  refine List.perm_middle.trans (.cons n ?_)
  exact List.perm_append_comm.trans (List.filter_append_perm isGreater xs)

/-- A number that is put in stands among the others in ascending order. -/
theorem Lists.insert (h : p.Lists xs) (hasc : p.Ascends xs) (v : UInt64) :
    ∃ p' ys, p.insert v = .ok () p' ∧ p'.Lists ys ∧ p'.Ascends ys ∧
      (ys.map p'.valueOf).Perm (v :: xs.map p.valueOf) := by
  obtain ⟨roll, rfl, hkeeps⟩ := h.exists_roll hasc
  have hfresh : p.entries.values.size < (p.entries.create v).2.values.size := by
    simp [Entries.create]
  obtain ⟨e, hinsert, he⟩ := (hkeeps.create v).insert hfresh h.fresh
  have hlists : Lists ⟨e⟩ _ := ⟨he.holds, he.known⟩
  have hvalues : (Pool.mk e).entries.values = p.entries.values.push v :=
    Entries.values_edit hinsert
  obtain ⟨hself, hothers⟩ := valueOf_of_push hvalues
  refine ⟨⟨e⟩, _, ?_, hlists, hlists.ascends_of_sorted he.sorted, ?_⟩
  · show ((p.entries.create v).2.insertNode (some p.entries.values.size)).inside Pool.mk = _
    rw [hinsert]
    rfl
  · refine ((perm_insertBehind _ p.entries.values.size roll.order).map _).trans ?_
    rw [List.map_cons, hself, List.map_congr_left fun n hn => hothers n (h.known n hn)]

/-! ## Removing -/

/-- Removing an element leaves all numbers with their elements. -/
theorem Lists.remove (h : p.Lists xs) (hn : n ∈ xs) :
    ∃ p', (p.entries.remove (some n)).inside Pool.mk = .ok () p' ∧ p'.Lists (xs.erase n) ∧
      p'.valueOf = p.valueOf := by
  obtain ⟨t', hremove, ht'⟩ := Tree.Holds.remove h.holds hn
  have hedit : p.entries.remove (some n) = .ok () { p.entries with tree := t' } :=
    Entries.edit_ok hremove
  rw [hedit]
  exact ⟨_, rfl, ⟨ht'.holds, fun m hm => h.known m (List.mem_of_mem_erase hm)⟩, rfl⟩

/-! ## Finding -/

theorem Lists.compare_value? (h : p.Lists xs) (hn : n ∈ xs) (v : UInt64) :
    compare (some v) (p.entries.value? n) = compare v (p.valueOf n) := by
  rw [h.value?_eq hn]
  rfl

/-- What is found is an element with the number, whether the numbers ascend or not. -/
theorem Lists.find_some (h : p.Lists xs) (v : UInt64) :
    ∃ found, p.entries.find v = .ok found ∧ ∀ n, found = some n → n ∈ xs ∧ p.valueOf n = v := by
  obtain ⟨s, hs, -, rfl⟩ := h.holds
  refine ⟨_, hs.find_eq _, fun n hn => ?_⟩
  obtain ⟨hmem, heq⟩ := Shape.lookup_eq_some hn
  rw [h.compare_value? hmem, Std.LawfulEqOrd.compare_eq_iff_eq] at heq
  exact ⟨hmem, heq.symm⟩

/-- A number is found where it is, and nothing is found where it is not. -/
theorem Lists.find (h : p.Lists xs) (hasc : p.Ascends xs) (v : UInt64) :
    ∃ found, p.entries.find v = .ok found ∧
      (∀ n, found = some n → n ∈ xs ∧ p.valueOf n = v) ∧
      (found = none → v ∉ xs.map p.valueOf) := by
  obtain ⟨found, hfind, hsome⟩ := h.find_some v
  refine ⟨found, hfind, hsome, fun hnone hmem => ?_⟩
  obtain ⟨s, hs, -, rfl⟩ := h.holds
  have hsorts : Shape.Sorts (fun n => compare (some v) (p.entries.value? n)) s.toList := by
    rw [Ascends, List.pairwise_map] at hasc
    refine hasc.imp_of_mem fun {n m} hn hm hnm => ?_
    simp only [h.compare_value? hn, h.compare_value? hm, Std.compare_eq_lt, Std.compare_eq_gt]
    exact ⟨fun hlt => UInt64.lt_of_lt_of_le hlt hnm, fun hlt => UInt64.lt_of_le_of_lt hnm hlt⟩
  obtain ⟨n, hn, rfl⟩ := List.mem_map.mp hmem
  have heq := h.compare_value? hn (p.valueOf n)
  rw [Std.ReflOrd.compare_self] at heq
  obtain ⟨m, hm⟩ := hsorts.exists_lookup hn heq
  have hlookup := hfind.symm.trans (hs.find_eq _)
  rw [hm, hnone] at hlookup
  cases hlookup

end Pool

end RedBlack
