import Mathlib.Data.List.Nodup
import Mathlib.Tactic.Tauto
import RedBlack.Proofs.Shape.Balance

/-!
# The nodes of a shape and of the place around it

A shape in a place names no node twice when the shape does not, the nodes around it
do not, and the two share none.  Here these are said separately: the order
of the nodes plays no part in where their records lie.
-/

namespace RedBlack

namespace Shape

/-- What is at the top is a node of the shape. -/
theorem mem_toList_of_top {s : Shape} {n : NodeId} (h : s.top = some n) : n ∈ s.toList := by
  cases s with
  | leaf => cases h
  | node c l m r =>
    cases h
    simp [toList]

theorem top_ne_of_notMem {s : Shape} {n : NodeId} (h : n ∉ s.toList) : s.top ≠ some n :=
  fun htop => h (mem_toList_of_top htop)

@[simp] theorem top_branch (d : Side) (c : Color) (n : NodeId) (x y : Shape) :
    (branch d c n x y).top = some n := by
  cases d <;> rfl

@[simp] theorem top_close (f : Frame) (s : Shape) : (f.close s).top = some f.id :=
  top_branch ..

@[simp] theorem top_paint (c : Color) (s : Shape) : (s.paint c).top = s.top := by
  cases s <;> rfl

theorem top_eq_none_iff {s : Shape} : s.top = none ↔ s = leaf := by
  cases s <;> simp [top]

@[simp] theorem mem_toList_branch {d : Side} {c : Color} {n i : NodeId} {x y : Shape} :
    i ∈ (branch d c n x y).toList ↔ i = n ∨ i ∈ x.toList ∨ i ∈ y.toList := by
  cases d <;> simp only [branch, toList, List.mem_append, List.mem_cons] <;> tauto

@[simp] theorem mem_toList_close {f : Frame} {s : Shape} {i : NodeId} :
    i ∈ (f.close s).toList ↔ i = f.id ∨ i ∈ s.toList ∨ i ∈ f.other.toList :=
  mem_toList_branch

/-- A node over two shapes names none twice when all three are apart. -/
theorem nodup_toList_branch {d : Side} {c : Color} {n : NodeId} {x y : Shape} :
    (branch d c n x y).toList.Nodup ↔
      n ∉ x.toList ∧ n ∉ y.toList ∧ x.toList.Nodup ∧ y.toList.Nodup ∧
        x.toList.Disjoint y.toList := by
  have hnode : ∀ x y : Shape, (node c x n y).toList.Nodup ↔
      n ∉ x.toList ∧ n ∉ y.toList ∧ x.toList.Nodup ∧ y.toList.Nodup ∧
        x.toList.Disjoint y.toList := by
    intro x y
    rw [toList, List.nodup_append', List.nodup_cons, List.disjoint_cons_right]
    tauto
  cases d with
  | left => exact hnode x y
  | right =>
    rw [branch, hnode y x, List.disjoint_comm]
    tauto

theorem disjoint_toList_branch {d : Side} {c : Color} {n : NodeId} {x y : Shape}
    {l : List NodeId} :
    (branch d c n x y).toList.Disjoint l ↔
      n ∉ l ∧ x.toList.Disjoint l ∧ y.toList.Disjoint l := by
  simp only [List.Disjoint, mem_toList_branch]
  constructor
  · intro h
    exact ⟨h (.inl rfl), fun _ hi => h (.inr (.inl hi)), fun _ hi => h (.inr (.inr hi))⟩
  · rintro ⟨hn, hx, hy⟩ i (rfl | hi | hi)
    · exact hn
    · exact hx hi
    · exact hy hi

end Shape

namespace Path

open Shape

/-- The node over a place. -/
def parent : Path → Option NodeId
  | [] => none
  | f :: _ => some f.id

/-- The nodes around a place. -/
def nodes : Path → List NodeId
  | [] => []
  | f :: up => f.id :: (f.other.toList ++ nodes up)

theorem mem_nodes_of_parent {p : Path} {n : NodeId} (h : p.parent = some n) : n ∈ p.nodes := by
  cases p with
  | nil => cases h
  | cons f up =>
    cases h
    exact List.mem_cons_self

theorem parent_ne_of_notMem {p : Path} {n : NodeId} (h : n ∉ p.nodes) : p.parent ≠ some n :=
  fun hp => h (mem_nodes_of_parent hp)

@[simp] theorem mem_nodes_cons {f : Frame} {up : Path} {i : NodeId} :
    i ∈ nodes (f :: up) ↔ i = f.id ∨ i ∈ f.other.toList ∨ i ∈ nodes up := by
  rw [nodes, List.mem_cons, List.mem_append]

@[simp] theorem mem_nodes_append {down up : Path} {i : NodeId} :
    i ∈ nodes (down ++ up) ↔ i ∈ nodes down ∨ i ∈ nodes up := by
  induction down with
  | nil => simp [nodes]
  | cons f down ih =>
    rw [List.cons_append, mem_nodes_cons, mem_nodes_cons, ih]
    tauto

@[simp] theorem mem_toList_fill {p : Path} {s : Shape} {i : NodeId} :
    i ∈ (p.fill s).toList ↔ i ∈ s.toList ∨ i ∈ p.nodes := by
  induction p generalizing s with
  | nil => simp [fill, nodes]
  | cons f up ih =>
    rw [fill, ih, Frame.close, mem_toList_branch, nodes, List.mem_cons, List.mem_append]
    tauto

/-- With a node over the place, what hangs there does not change the top. -/
theorem exists_top_fill (f : Frame) (up : Path) :
    ∃ i ∈ nodes (f :: up), ∀ s, (fill (f :: up) s).top = some i := by
  induction up generalizing f with
  | nil => exact ⟨f.id, by simp, fun s => top_close f s⟩
  | cons g up ih =>
    obtain ⟨i, hi, htop⟩ := ih g
    exact ⟨i, mem_nodes_cons.mpr (.inr (.inr hi)), fun s => htop (f.close s)⟩

/-- A shape in a place names no node twice when shape and place do not and are
apart. -/
theorem nodup_toList_fill {p : Path} {s : Shape} :
    (p.fill s).toList.Nodup ↔ s.toList.Nodup ∧ p.nodes.Nodup ∧ s.toList.Disjoint p.nodes := by
  induction p generalizing s with
  | nil => simp [fill, nodes]
  | cons f up ih =>
    rw [fill, ih, Frame.close, nodup_toList_branch, nodes, List.nodup_cons, List.nodup_append',
      List.mem_append, List.disjoint_cons_right, List.disjoint_append_right]
    simp only [List.Disjoint, mem_toList_branch]
    constructor
    · rintro ⟨⟨hs, ho, hsn, hon, hso⟩, hup, hd⟩
      exact ⟨hsn, ⟨fun h => h.elim ho fun h => hd (.inl rfl) h, hon, hup,
        fun _ hi => hd (.inr (.inr hi))⟩, hs, hso, fun _ hi => hd (.inr (.inl hi))⟩
    · rintro ⟨hsn, ⟨hn, hon, hup, hod⟩, hs, hso, hsd⟩
      rw [not_or] at hn
      refine ⟨⟨hs, hn.1, hsn, hon, hso⟩, hup, ?_⟩
      rintro i (rfl | hi | hi)
      · exact hn.2
      · exact hsd hi
      · exact hod hi

/-- Every frame over a place is a node. -/
theorem length_add_le (p : Path) (s : Shape) :
    p.length + s.toList.length ≤ (p.fill s).toList.length := by
  induction p generalizing s with
  | nil => simp [fill]
  | cons f up ih =>
    have hclose : (f.close s).toList.length = s.toList.length + f.other.toList.length + 1 := by
      cases hd : f.side <;> simp [Frame.close, branch, toList, hd] <;> omega
    have hup := ih (f.close s)
    rw [List.length_cons, fill]
    omega

end Path

end RedBlack
