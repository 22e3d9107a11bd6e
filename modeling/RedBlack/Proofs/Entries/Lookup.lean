import RedBlack.Proofs.Entries.Runs
import RedBlack.Proofs.Tree.Lookup

/-!
# Looking up misses nothing

A search among elements compares the value that is sought with the values on its way.  Where
the elements stand in the order of their values, its answers are in order whatever value is
sought, also when many elements have a value equal to it.

* `Entries.sorts_of_sorted` is that fact, and `compare_some_eq_iff` says when an element
  answers `eq`.
* `find_complete` is the result, for any answers that come in three blocks and for
  elements.  Colours and balance play no part in it.
-/

namespace RedBlack

namespace Entries

variable {α : Type} [Ord α] {e : Entries α} {xs : List NodeId}

/-- An element compares equal to a value when it has one that does. -/
theorem compare_some_eq_iff {v : α} {w : Option α} :
    compare (some v) w = .eq ↔ ∃ x, w = some x ∧ compare v x = .eq := by
  constructor
  · intro h
    cases w with
    | none => cases h
    | some x => exact ⟨x, rfl, h⟩
  · rintro ⟨x, rfl, h⟩
    exact h

/-- Among elements in the order of their values, the answers of a search for a value are in
order. -/
theorem sorts_of_sorted [Std.TransOrd α] (v : α)
    (h : xs.Pairwise fun m k => (e.compareNodes m k).isLE = true) :
    Shape.Sorts (fun n => compare (some v) (e.value? n)) xs := by
  refine h.imp fun {m k} hle => ⟨fun hlt => ?_, fun hgt => ?_⟩
  · exact Std.TransCmp.lt_of_lt_of_isLE hlt hle
  · exact Std.OrientedCmp.gt_of_lt (Std.TransCmp.lt_of_isLE_of_lt hle (Std.OrientedCmp.lt_of_gt hgt))

end Entries

namespace Tree

variable {t : Tree} {s : Shape}

/-- In a tree whose links fit together, a search whose answers come in three blocks finds a node
that answers `eq` when there is one, and this node is above all others that do.  So a search
for a value, among elements in the order of their values, finds an element with an equal value
exactly when there is one. -/
theorem find_complete (h : t.Spells s) :
    (∀ (order : NodeId → Ordering) (before equal after : List NodeId),
      s.toList = before ++ equal ++ after → (∀ m ∈ before, order m = .gt) →
      (∀ m ∈ equal, order m = .eq) → (∀ m ∈ after, order m = .lt) →
        ∃ found, t.find order = .ok found ∧
          t.FindsTopmost s.toList (fun m => order m = .eq) found) ∧
    ∀ {α : Type} [Ord α] [Std.TransOrd α] (values : Array α) (v : α),
      let e : Entries α := ⟨t, values⟩
      (s.toList.Pairwise fun m k => (e.compareNodes m k).isLE = true) →
        ∃ found, e.find v = .ok found ∧
          t.FindsTopmost s.toList (fun m => ∃ w, e.value? m = some w ∧ compare v w = .eq)
            found := by
  constructor
  · intro order before equal after hlist hbefore hequal hafter
    have hsorts : Shape.Sorts order s.toList := by
      rw [hlist]
      exact Shape.sorts_of_blocks hbefore hequal hafter
    exact ⟨_, h.find_eq order, h.findsTopmost hsorts⟩
  · intro α _ _ values v e hsorted
    have hfound := h.findsTopmost (Entries.sorts_of_sorted v hsorted)
    simp only [Entries.compare_some_eq_iff] at hfound
    exact ⟨_, h.find_eq _, hfound⟩

/-- Four equal values, at the top and on both sides of it, behind a smaller one: the top is
found, which is above the other three.  The same tree is searched for any other value. -/
theorem find_complete_of_duplicates :
    let s : Shape := .node .black (.node .black (.node .red .leaf 4 .leaf) 0 .leaf) 1
      (.node .black (.node .red .leaf 3 .leaf) 2 .leaf)
    let t := build {} s
    let order : NodeId → Ordering := fun n => if n = 4 then .gt else .eq
    let e : Entries Nat := ⟨t, #[5, 5, 5, 5, 1]⟩
    s.toList = [4] ++ [0, 1, 3, 2] ++ [] ∧
      (∃ found, t.find order = .ok found ∧
        t.FindsTopmost [4, 0, 1, 3, 2] (fun m => order m = .eq) found) ∧
      ([4, 0, 1, 3, 2].Pairwise fun m k => (e.compareNodes m k).isLE = true) ∧
      ∀ v, ∃ found, e.find v = .ok found ∧
        t.FindsTopmost [4, 0, 1, 3, 2] (fun m => ∃ w, e.value? m = some w ∧ compare v w = .eq)
          found := by
  intro s t order e
  have h : t.Spells s := spells_build {} (by decide)
  have hsorted : s.toList.Pairwise fun m k => (e.compareNodes m k).isLE = true := by decide
  refine ⟨rfl, ?_, hsorted, fun v => (find_complete h).2 _ v hsorted⟩
  exact (find_complete h).1 order [4] [0, 1, 3, 2] [] rfl (by decide) (by decide) (by decide)

end Tree

end RedBlack
