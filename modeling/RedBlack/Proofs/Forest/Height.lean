import Mathlib.Algebra.Group.Nat.Defs
import RedBlack.Proofs.Forest.Runs
import RedBlack.Proofs.Tree.Sharing
import RedBlack.Proofs.Tree.Lookup

/-!
# Red-black trees are low

A red node has no red child, so at least every other node on a way down is black; and black
nodes are the same number on all ways down, so that below the top of a tree there are at least
as many nodes as in a full one of that height.

* `Balanced.height_le` and `Balanced.two_pow_le` are these two counts, by induction over the
  shape.
* `Holds.searchesWithin` bounds the nodes that a search looks at, which are no more than
  there are levels.
* `height_logarithmic` is the result, for the measures of any tree that passes the check and
  for searches after any run of calls.
-/

namespace RedBlack

namespace Shape

variable {s : Shape} {h : Nat}

/-! ## Two counts -/

/-- At most every other node on a way down is red. -/
theorem Balanced.height_le (hs : s.Balanced h) :
    s.height ≤ 2 * h + if s.isRed = true then 1 else 0 := by
  induction s generalizing h with
  | leaf => exact Nat.zero_le _
  | node c l n r ihl ihr =>
    obtain ⟨hred, k, rfl, hl, hr⟩ := balanced_node.mp hs
    have hlk := ihl hl
    have hrk := ihr hr
    rw [Shape.height]
    cases c with
    | red =>
      obtain ⟨hlblack, hrblack⟩ := hred rfl
      simp only [hlblack, hrblack, Bool.false_eq_true, if_false] at hlk hrk
      simp only [isRed, Color.weight, decide_true, if_true]
      omega
    | black =>
      have hone : ∀ b : Bool, (if b = true then 1 else 0) ≤ 1 := by decide
      have hlone := hone l.isRed
      have hrone := hone r.isRed
      simp only [Color.weight]
      omega

/-- Each black node on a way down doubles the number of ways. -/
theorem Balanced.two_pow_le (hs : s.Balanced h) : 2 ^ h ≤ s.size + 1 := by
  induction s generalizing h with
  | leaf =>
    rw [balanced_leaf.mp hs]
    exact Nat.le_refl 1
  | node c l n r ihl ihr =>
    obtain ⟨-, k, rfl, hl, hr⟩ := balanced_node.mp hs
    have hlk := ihl hl
    have hrk := ihr hr
    rw [size]
    cases c with
    | red =>
      rw [Color.weight, Nat.add_zero]
      omega
    | black =>
      rw [Color.weight, Nat.pow_succ]
      omega

/-- A red-black shape of black height `b` has at most `2 * b` levels, and at least as many
nodes as a full tree of `b` levels. -/
theorem IsRedBlack.height_le (hs : s.IsRedBlack) :
    s.height ≤ 2 * s.blackHeight ∧ 2 ^ s.blackHeight ≤ s.size + 1 := by
  obtain ⟨hblack, h, hbal⟩ := isRedBlack_iff.mp hs
  have hheight := hbal.height_le
  rw [hblack] at hheight
  rw [hbal.height.blackHeight_eq]
  exact ⟨hheight, hbal.two_pow_le⟩

theorem IsRedBlack.height_le_log2 (hs : s.IsRedBlack) :
    s.height ≤ 2 * Nat.log2 (s.size + 1) := by
  obtain ⟨hheight, hpow⟩ := hs.height_le
  have hlog : s.blackHeight ≤ Nat.log2 (s.size + 1) :=
    (Nat.le_log2 (Nat.succ_ne_zero _)).mpr hpow
  omega

end Shape

namespace Tree

open Shape

variable {t : Tree}

/-! ## Searches and measures -/

/-- A search for a slot and a search for a node both come to an answer, and look at no more
than `k` nodes. -/
structure SearchesWithin (t : Tree) (k : Nat) (order : NodeId → Ordering) : Prop where
  slot_answers : ∃ slot, t.slotFor order = .ok slot
  slot_passed : (t.passed (slotFor.descend t order)).length ≤ k
  find_answers : ∃ found, t.find order = .ok found
  find_passed : (t.passed (find.descend t order)).length ≤ k

theorem Holds.searchesWithin {xs : List NodeId} (h : t.Holds xs) (order : NodeId → Ordering) :
    t.SearchesWithin (2 * Nat.log2 (xs.length + 1)) order := by
  obtain ⟨s, hs, hrb, rfl⟩ := h
  have hheight := hrb.height_le_log2
  rw [size_eq_length] at hheight
  exact ⟨⟨_, hs.slotFor order⟩,
    Nat.le_trans (hs.length_passed_le (t.goesDown_slotFor order)) hheight,
    ⟨_, hs.find_eq order⟩,
    Nat.le_trans (hs.length_passed_le (t.goesDown_find order)) hheight⟩

/-- What the check measures: the height is at most twice the black height, and at most twice
the binary logarithm of the size, which is said by powers of two. -/
theorem height_le_of_validate {st : Stats} (h : t.validate = .ok st) :
    st.height ≤ 2 * st.blackHeight ∧ 2 ^ st.blackHeight ≤ st.size + 1 ∧
      2 ^ st.height ≤ (st.size + 1) ^ 2 := by
  obtain ⟨s, -, hrb, rfl⟩ := exists_unfolds_of_validate h
  obtain ⟨hheight, hpow⟩ := hrb.height_le
  refine ⟨hheight, hpow, ?_⟩
  calc 2 ^ s.height ≤ 2 ^ (2 * s.blackHeight) := Nat.pow_le_pow_right (by decide) hheight
    _ = (2 ^ s.blackHeight) ^ 2 := by rw [Nat.mul_comm, Nat.pow_mul]
    _ ≤ (s.size + 1) ^ 2 := Nat.pow_le_pow_left hpow 2

end Tree

/-- The height of a tree that passes the check is logarithmic in its size, whatever the links
of the store are.  After any run of calls from empty trees, so is the number of nodes that a
search by any comparison looks at, where the length of the ledger is the number of nodes. -/
theorem height_logarithmic :
    (∀ (t : Tree) (st : Stats), t.validate = .ok st →
      st.height ≤ 2 * st.blackHeight ∧ 2 ^ st.blackHeight ≤ st.size + 1 ∧
        2 ^ st.height ≤ (st.size + 1) ^ 2) ∧
    ∀ (f₀ f : Forest) (L : Ledger) (moves : List Move), (∀ r, f₀.tops.get r = none) →
      Run f₀ (fun _ => []) moves f L →
        ∀ r order, (f.tree r).SearchesWithin (2 * Nat.log2 ((L r).length + 1)) order := by
  refine ⟨fun t st h => Tree.height_le_of_validate h, fun f₀ f L moves hempty h r order => ?_⟩
  have hkeeps : f.Keeps L := h.keeps (Forest.keeps_of_empty hempty)
  exact (hkeeps.trees r).searchesWithin order

/-- Three insertions in ascending order make a tree of two levels, of which one is black; the
bound on a search is four nodes. -/
theorem height_logarithmic_of_three :
    ∃ f L, Run (.detached 3) (fun _ => []) [.insert 0 (fun n m => compare n m) 0,
        .insert 0 (fun n m => compare n m) 1, .insert 0 (fun n m => compare n m) 2] f L ∧
      (f.tree 0).validate = .ok ⟨3, 1, 2⟩ ∧ (2 ≤ 2 * 1 ∧ 2 ^ 1 ≤ 3 + 1 ∧ 2 ^ 2 ≤ (3 + 1) ^ 2) ∧
      ∀ order, (f.tree 0).SearchesWithin 4 order := by
  have hrun : ∃ f L, Run (.detached 3) (fun _ => []) [.insert 0 (fun n m => compare n m) 0,
      .insert 0 (fun n m => compare n m) 1, .insert 0 (fun n m => compare n m) 2] f L ∧
      (f.tree 0).validate = .ok ⟨3, 1, 2⟩ ∧ 2 * Nat.log2 ((L 0).length + 1) = 4 := by
    refine ⟨_, _, .cons ?_ (.cons ?_ (.cons ?_ .nil)), by decide +kernel, by decide +kernel⟩
    all_goals exact fun
      | 0 => by decide +kernel
      | _ + 1 => List.not_mem_nil
  obtain ⟨f, L, h, hvalid, hbound⟩ := hrun
  have hsearch := height_logarithmic.2 _ f L _ (fun _ => rfl) h 0
  rw [hbound] at hsearch
  exact ⟨f, L, h, hvalid, height_logarithmic.1 _ _ hvalid, hsearch⟩

end RedBlack
