import Mathlib.Logic.Function.Basic
import RedBlack.Proofs.Shape.Balance
import RedBlack.Proofs.Shape.Nodes

/-!
# Shapes with other nodes in the same places

`Shape.rename` puts other nodes in the places of all nodes.  Everything else about a shape
stays: its views are renamed, and the rules do not see names at all.

* `toList_rename`, `postorder_rename` and `top_rename` are the views, and
  `isRedBlack_rename` the rules.
* `rename_congr` says that only the nodes of the shape matter, and `rename_fill_node` that the
  renaming of one node changes one place.
* `rename_update_update` takes the renaming of one node back.
* `substitute` is the renaming by a list of pairs, and `substitute_perm` says that the order of
  the pairs plays no part in it.
* `Swaps` are pairs that can be renamed one after the other, which is the renaming by all of
  them at once (`Swaps.rename_cons`).
-/

namespace RedBlack

/-- One name for another in a list. -/
theorem mem_map_update {xs : List NodeId} {i n m : NodeId} :
    i ∈ xs.map (Function.update id n m) ↔ (n ∈ xs ∧ i = m) ∨ (i ∈ xs ∧ i ≠ n) := by
  rw [List.mem_map]
  constructor
  · rintro ⟨j, hj, rfl⟩
    by_cases h : j = n
    · exact .inl ⟨h ▸ hj, by rw [h, Function.update_self]⟩
    · rw [Function.update_of_ne h]
      exact .inr ⟨hj, h⟩
  · rintro (⟨hn, rfl⟩ | ⟨hi, h⟩)
    · exact ⟨n, hn, Function.update_self ..⟩
    · exact ⟨i, hi, Function.update_of_ne h ..⟩

/-- In a list that names no node twice, one node changes. -/
theorem map_update_middle {xs ys : List NodeId} {n : NodeId} (h : (xs ++ n :: ys).Nodup)
    (m : NodeId) : (xs ++ n :: ys).map (Function.update id n m) = xs ++ m :: ys := by
  rw [List.nodup_middle, List.nodup_cons, List.mem_append, not_or] at h
  obtain ⟨⟨hxs, hys⟩, -⟩ := h
  have hkeep : ∀ zs : List NodeId, n ∉ zs → zs.map (Function.update id n m) = zs := by
    intro zs hzs
    refine (List.map_congr_left fun i hi => ?_).trans (List.map_id zs)
    rw [Function.update_of_ne (ne_of_mem_of_not_mem hi hzs)]
  rw [List.map_append, List.map_cons, hkeep xs hxs, hkeep ys hys, Function.update_self]

namespace Shape

variable {s : Shape} {f g : NodeId → NodeId}

/-! ## Views -/

@[simp] theorem toList_rename (s : Shape) (f : NodeId → NodeId) :
    (s.rename f).toList = s.toList.map f := by
  induction s with
  | leaf => rfl
  | node c l n r ihl ihr => rw [rename, toList, ihl, ihr, toList, List.map_append, List.map_cons]

@[simp] theorem postorder_rename (s : Shape) (f : NodeId → NodeId) :
    (s.rename f).postorder = s.postorder.map f := by
  induction s with
  | leaf => rfl
  | node c l n r ihl ihr =>
    rw [rename, postorder, ihl, ihr, postorder, List.map_append, List.map_append, List.map_singleton]

@[simp] theorem top_rename (s : Shape) (f : NodeId → NodeId) :
    (s.rename f).top = s.top.map f := by
  cases s <;> rfl

@[simp] theorem isRed_rename (s : Shape) (f : NodeId → NodeId) :
    (s.rename f).isRed = s.isRed := by
  cases s <;> rfl

/-! ## Rules -/

theorem balanced_rename {h : Nat} : (s.rename f).Balanced h ↔ s.Balanced h := by
  induction s generalizing h with
  | leaf => rfl
  | node c l n r ihl ihr => simp only [rename, balanced_node, isRed_rename, ihl, ihr]

theorem isRedBlack_rename : (s.rename f).IsRedBlack ↔ s.IsRedBlack := by
  simp only [isRedBlack_iff, isRed_rename, balanced_rename]

/-! ## Names that count -/

/-- Only the names of the nodes of a shape matter. -/
theorem rename_congr (h : ∀ i ∈ s.toList, f i = g i) : s.rename f = s.rename g := by
  induction s with
  | leaf => rfl
  | node c l n r ihl ihr =>
    simp only [toList, List.forall_mem_append, List.forall_mem_cons] at h
    rw [rename, rename, ihl h.1, h.2.1, ihr h.2.2]

@[simp] theorem rename_id (s : Shape) : s.rename id = s := by
  induction s with
  | leaf => rfl
  | node c l n r ihl ihr => rw [rename, ihl, ihr, id]

theorem rename_rename (s : Shape) (f g : NodeId → NodeId) :
    (s.rename f).rename g = s.rename (g ∘ f) := by
  induction s with
  | leaf => rfl
  | node c l n r ihl ihr => rw [rename, rename, ihl, ihr, rename, Function.comp_apply]

theorem rename_eq_self (h : ∀ i ∈ s.toList, f i = i) : s.rename f = s :=
  (rename_congr h).trans s.rename_id

/-- A name that occurs nowhere in a shape is no matter for it. -/
theorem rename_update_of_notMem {n m : NodeId} (h : n ∉ s.toList) :
    s.rename (Function.update id n m) = s :=
  rename_eq_self fun _ hi => Function.update_of_ne (ne_of_mem_of_not_mem hi h) ..

/-- The node that was renamed is in the shape no more. -/
theorem old_notMem_rename {n m : NodeId} (hn : n ∈ s.toList) (hm : m ∉ s.toList) :
    n ∉ (s.rename (Function.update id n m)).toList := by
  rw [toList_rename, mem_map_update]
  rintro (⟨-, h⟩ | ⟨-, h⟩)
  · exact ne_of_mem_of_not_mem hn hm h
  · exact h rfl

theorem new_mem_rename {n m : NodeId} (hn : n ∈ s.toList) :
    m ∈ (s.rename (Function.update id n m)).toList := by
  rw [toList_rename, mem_map_update]
  exact .inl ⟨hn, rfl⟩

theorem notMem_rename_update {i n m : NodeId} (hi : i ∉ s.toList) (hm : i ≠ m) :
    i ∉ (s.rename (Function.update id n m)).toList := by
  rw [toList_rename, mem_map_update]
  rintro (⟨-, h⟩ | ⟨h, -⟩)
  · exact hm h
  · exact hi h

/-- The renaming back is the way back. -/
theorem rename_update_update {n m : NodeId} (hm : m ∉ s.toList) :
    (s.rename (Function.update id n m)).rename (Function.update id m n) = s := by
  rw [rename_rename]
  refine rename_eq_self fun i hi => ?_
  have hne : i ≠ m := ne_of_mem_of_not_mem hi hm
  by_cases h : i = n
  · rw [h, Function.comp_apply, Function.update_self, Function.update_self]
  · rw [Function.comp_apply, Function.update_of_ne h, id, Function.update_of_ne hne, id]

/-- A place whose nodes keep their names. -/
theorem rename_fill {p : Path} (h : ∀ i ∈ p.nodes, f i = i) :
    (p.fill s).rename f = p.fill (s.rename f) := by
  induction p generalizing s with
  | nil => rfl
  | cons e up ih =>
    simp only [Path.nodes, List.forall_mem_cons, List.forall_mem_append] at h
    obtain ⟨he, hother, hup⟩ := h
    have hclose : (e.close s).rename f = e.close (s.rename f) := by
      have hkeep := rename_eq_self hother
      cases hside : e.side <;> simp only [Frame.close, branch, hside, rename, he, hkeep]
    rw [Path.fill, ih hup, hclose, Path.fill]

/-- The renaming of one node changes the place of that node only. -/
theorem rename_fill_node {p : Path} {c : Color} {l r : Shape} {n : NodeId}
    (h : (p.fill (node c l n r)).toList.Nodup) (m : NodeId) :
    (p.fill (node c l n r)).rename (Function.update id n m) = p.fill (node c l m r) := by
  obtain ⟨hnodup, -, hdisj⟩ := Path.nodup_toList_fill.mp h
  obtain ⟨hl, hr, -⟩ := (nodup_toList_branch (d := .left)).mp hnodup
  have hn : n ∉ p.nodes := ((disjoint_toList_branch (d := .left)).mp hdisj).1
  rw [rename_fill, rename, rename_update_of_notMem hl, rename_update_of_notMem hr,
    Function.update_self]
  exact fun i hi => Function.update_of_ne (ne_of_mem_of_not_mem hi hn) ..

end Shape

/-! ## Renaming by pairs -/

/-- The renaming that takes the first node of each pair to the second one, and keeps all other
nodes. -/
def substitute : List (NodeId × NodeId) → NodeId → NodeId
  | [] => id
  | (old, new) :: rest => Function.update (substitute rest) old new

theorem substitute_of_notMem {pairs : List (NodeId × NodeId)} {i : NodeId}
    (h : i ∉ pairs.map Prod.fst) : substitute pairs i = i := by
  induction pairs with
  | nil => rfl
  | cons pair rest ih =>
    rw [List.map_cons, List.mem_cons, not_or] at h
    rw [substitute, Function.update_of_ne h.1, ih h.2]

theorem substitute_of_mem {pairs : List (NodeId × NodeId)} {pair : NodeId × NodeId}
    (hnodup : (pairs.map Prod.fst).Nodup) (h : pair ∈ pairs) : substitute pairs pair.1 = pair.2 := by
  induction pairs with
  | nil => cases h
  | cons head rest ih =>
    rw [List.map_cons, List.nodup_cons] at hnodup
    rw [List.mem_cons] at h
    rcases h with rfl | h
    · rw [substitute, Function.update_self]
    · have hne : pair.1 ≠ head.1 := ne_of_mem_of_not_mem (List.mem_map_of_mem h) hnodup.1
      rw [substitute, Function.update_of_ne hne, ih hnodup.2 h]

/-- Pairs with different first nodes can come in any order. -/
theorem substitute_perm {pairs pairs' : List (NodeId × NodeId)} (h : pairs.Perm pairs')
    (hnodup : (pairs.map Prod.fst).Nodup) : substitute pairs = substitute pairs' := by
  induction h with
  | nil => rfl
  | cons pair _ ih =>
    rw [List.map_cons, List.nodup_cons] at hnodup
    rw [substitute, substitute, ih hnodup.2]
  | swap pair pair' rest =>
    simp only [List.map_cons, List.nodup_cons, List.mem_cons, not_or] at hnodup
    rw [substitute, substitute, substitute, substitute]
    exact Function.update_comm (Ne.symm hnodup.1.1) _ _ _
  | trans h _ ih ih' => exact (ih hnodup).trans (ih' ((h.map _).nodup_iff.mp hnodup))

/-- Pairs of one of the nodes `xs` and one other node, where all nodes are different. -/
structure Swaps (xs : List NodeId) (pairs : List (NodeId × NodeId)) : Prop where
  old : ∀ pair ∈ pairs, pair.1 ∈ xs
  new : ∀ pair ∈ pairs, pair.2 ∉ xs
  nodupOld : (pairs.map Prod.fst).Nodup
  nodupNew : (pairs.map Prod.snd).Nodup

variable {xs : List NodeId} {s : Shape} {old new : NodeId} {pairs pairs' : List (NodeId × NodeId)}

theorem Swaps.perm (h : Swaps xs pairs) (hperm : pairs.Perm pairs') :
    Swaps xs pairs' where
  old pair hp := h.old pair (hperm.mem_iff.mpr hp)
  new pair hp := h.new pair (hperm.mem_iff.mpr hp)
  nodupOld := (hperm.map _).nodup_iff.mp h.nodupOld
  nodupNew := (hperm.map _).nodup_iff.mp h.nodupNew

/-- Each replacement leaves the other pairs as fit as they were. -/
theorem Swaps.tail (h : Swaps xs ((old, new) :: pairs)) :
    Swaps (xs.map (Function.update id old new)) pairs := by
  obtain ⟨hold, hnew, hnodupOld, hnodupNew⟩ := h
  rw [List.forall_mem_cons] at hold hnew
  rw [List.map_cons, List.nodup_cons] at hnodupOld hnodupNew
  refine ⟨fun pair hp => ?_, fun pair hp => ?_, hnodupOld.2, hnodupNew.2⟩
  · have hne : pair.1 ≠ old := ne_of_mem_of_not_mem (List.mem_map_of_mem hp) hnodupOld.1
    exact mem_map_update.mpr (.inr ⟨hold.2 pair hp, hne⟩)
  · have hne : pair.2 ≠ new := ne_of_mem_of_not_mem (List.mem_map_of_mem hp) hnodupNew.1
    rw [mem_map_update]
    rintro (⟨-, h⟩ | ⟨h, -⟩)
    · exact hne h
    · exact hnew.2 pair hp h

/-- The pairs one after the other are the pairs at once. -/
theorem Swaps.rename_cons (h : Swaps s.toList ((old, new) :: pairs)) :
    (s.rename (Function.update id old new)).rename (substitute pairs) =
      s.rename (substitute ((old, new) :: pairs)) := by
  obtain ⟨hold, hnew, -, -⟩ := h
  rw [List.forall_mem_cons] at hold hnew
  rw [Shape.rename_rename, substitute]
  refine Shape.rename_congr fun i _ => ?_
  by_cases hi : i = old
  · -- No later pair takes up the new node, since that was not linked.
    have hfirst : new ∉ pairs.map Prod.fst := by
      rintro hmem
      obtain ⟨pair, hp, rfl⟩ := List.mem_map.mp hmem
      exact hnew.1 (hold.2 pair hp)
    rw [hi, Function.comp_apply, Function.update_self, Function.update_self,
      substitute_of_notMem hfirst]
  · rw [Function.comp_apply, Function.update_of_ne hi, Function.update_of_ne hi, id]

/-- What is not of the renamed shape and was not replaced has no part in the renaming. -/
theorem Swaps.notMem_of_rename {i : NodeId} (h : Swaps s.toList pairs)
    (hi : i ∉ (s.rename (substitute pairs)).toList) (hold : i ∉ pairs.map Prod.fst) :
    i ∉ s.toList ∧ i ∉ pairs.map Prod.snd := by
  rw [Shape.toList_rename, List.mem_map, not_exists] at hi
  constructor
  · exact fun his => hi i ⟨his, substitute_of_notMem hold⟩
  · rw [List.mem_map]
    rintro ⟨pair, hp, rfl⟩
    exact hi pair.1 ⟨h.old pair hp, substitute_of_mem h.nodupOld hp⟩

end RedBlack
