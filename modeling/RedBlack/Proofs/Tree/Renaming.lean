import RedBlack.Proofs.Shape.Renaming
import RedBlack.Proofs.Tree.Calls
import RedBlack.Proofs.Tree.Postorder

/-!
# Replacing nodes renames them

A replacement moves no node and paints none: afterwards the tree is the one it was, with
another name in one place.

* `record_rename` says so about the records: those of a renamed shape are those of the shape,
  renamed.  Without a renaming it says that a shape fixes the records of its nodes
  (`Spells.sameBut`).
* `Spells.replace_rename` is one replacement and `Spells.replaceEach` a sequence of them.  Both are a
  renaming of the shape, so that the order plays no part and the way back is the renaming back.
* `replace_renames` puts this together.  What it leaves open are the records of nodes that are
  no longer linked: a replaced node keeps the links that it had when it was replaced.
-/

namespace RedBlack

/-- A record whose links lead to other nodes. -/
def Record.rename (f : NodeId → NodeId) (r : Record) : Record where
  parent := r.parent.map f
  color := r.color
  left := r.left.map f
  right := r.right.map f

@[simp] theorem Record.rename_id (r : Record) : r.rename id = r := by
  simp only [rename, Option.map_id, id]

namespace Tree

open Shape

variable {t t' : Tree} {s : Shape} {f : NodeId → NodeId} {old new : NodeId}
  {pairs pairs' : List (NodeId × NodeId)}

/-! ## Records under other names -/

theorem record_rename {q : Option NodeId} {i : NodeId} (h : s.Hangs t.store q)
    (h' : (s.rename f).Hangs t'.store (q.map f)) (hi : i ∈ s.toList) :
    t'.record (f i) = (t.record i).rename f := by
  induction s generalizing q with
  | leaf => cases hi
  | node c l n r ihl ihr =>
    obtain ⟨hn, hl, hr⟩ := h
    obtain ⟨hn', hl', hr'⟩ := h'
    rw [Shape.toList, List.mem_append, List.mem_cons] at hi
    obtain hi | rfl | hi := hi
    · exact ihl hl hl' hi
    · rw [top_rename, top_rename] at hn'
      exact hn'.trans (congrArg (Record.rename f) hn).symm
    · exact ihr hr hr' hi

/-- The tree `t'` is `t`, which spells `s`, with the node `f i` in the place of each node `i`:
at the top, in every link of every node, and along both walks. -/
structure Renamed (t t' : Tree) (s : Shape) (f : NodeId → NodeId) : Prop where
  spells : t'.Spells (s.rename f)
  top : t'.top = t.top.map f
  record : ∀ i ∈ s.toList, t'.record (f i) = (t.record i).rename f
  toList : t'.toList = .ok (s.toList.map f)
  postorder : t'.postorder = .ok (s.postorder.map f)

theorem Spells.renamed (h : t.Spells s) (h' : t'.Spells (s.rename f)) : t.Renamed t' s f where
  spells := h'
  top := by rw [h'.top, top_rename, h.top]
  record _ hi := record_rename h.hangs h'.hangs hi
  toList := by rw [h'.toList_eq, toList_rename]
  postorder := by rw [h'.postorder_eq, postorder_rename]

/-- Two trees that differ in the records of `stale` only. -/
structure SameBut (t t' : Tree) (stale : List NodeId) : Prop where
  top : t'.top = t.top
  record : ∀ i, i ∉ stale → t'.record i = t.record i

/-- Trees that spell the same shape can differ outside of it only. -/
theorem Spells.sameBut {stale : List NodeId} (h : t.Spells s) (h' : t'.Spells s)
    (hframe : ∀ i, i ∉ s.toList → i ∉ stale → t'.record i = t.record i) :
    t.SameBut t' stale where
  top := h'.top.trans h.top.symm
  record i hstale := by
    by_cases hi : i ∈ s.toList
    · have hid : (s.rename id).Hangs t'.store (Option.map id none) := by
        rw [rename_id]
        exact h'.hangs
      have hrecord := record_rename h.hangs hid hi
      rwa [Record.rename_id] at hrecord
    · exact hframe i hi hstale

/-- Neither the top nor a link of one of `xs` leads to `n`. -/
def Avoids (t : Tree) (xs : List NodeId) (n : NodeId) : Prop :=
  t.top ≠ some n ∧ ∀ i ∈ xs, t.parent i ≠ some n ∧ ∀ d, t.child i d ≠ some n

theorem Holds.avoids {xs : List NodeId} {n : NodeId} (h : t.Holds xs) (hn : n ∉ xs) :
    t.Avoids xs n :=
  ⟨fun htop => hn (h.mem_of_top htop), fun _ hi =>
    ⟨fun hp => hn (h.mem_of_link hi (.inl hp)), fun d hc => hn (h.mem_of_link hi (.inr ⟨d, hc⟩))⟩⟩

/-! ## One replacement -/

/-- A replacement answers, and the records outside of the new shape stay. -/
theorem Spells.replace_rename (h : t.Spells s) (hs : s.IsRedBlack) (hold : old ∈ s.toList)
    (hnew : new ∉ s.toList) :
    ∃ t', t.replace (some old) (some new) = .ok () t' ∧
      t.Reshapes t' (s.rename (Function.update id old new)) := by
  obtain ⟨p, c, l, r, -, rfl⟩ := exists_focus? hold
  rw [rename_fill_node h.nodup new]
  exact h.replace hs hnew

/-! ## Many replacements -/

/-- Does replacements one after the other, up to the first that fails. -/
def replaceEach (t : Tree) : List (NodeId × NodeId) → Outcome Tree Unit
  | [] => .ok () t
  | (old, new) :: rest =>
    (t.replace (some old) (some new)).andThen fun () t => t.replaceEach rest

/-- The induction is on the pairs, for any tree and shape: the first replacement leaves a
renamed shape, in which the remaining pairs are fit. -/
theorem Spells.replaceEach (h : t.Spells s) (hs : s.IsRedBlack) (hp : Swaps s.toList pairs) :
    ∃ t', t.replaceEach pairs = .ok () t' ∧ t'.Spells (s.rename (substitute pairs)) ∧
      ∀ i, i ∉ s.toList → i ∉ pairs.map Prod.snd → t'.record i = t.record i := by
  induction pairs generalizing t s with
  | nil => exact ⟨t, rfl, (rename_id s).symm ▸ h, fun _ _ _ => rfl⟩
  | cons pair rest ih =>
    obtain ⟨old, new⟩ := pair
    obtain ⟨t₁, hreplace, ht₁⟩ := h.replace_rename hs (hp.old _ List.mem_cons_self)
      (hp.new _ List.mem_cons_self)
    have hrest : Swaps (s.rename (Function.update id old new)).toList rest := by
      rw [toList_rename]
      exact hp.tail
    obtain ⟨t', heach, ht', hframe⟩ := ih ht₁.spells (isRedBlack_rename.mpr hs) hrest
    rw [hp.rename_cons] at ht'
    refine ⟨t', ?_, ht', fun i hi hnew => ?_⟩
    · rw [Tree.replaceEach, hreplace]
      exact heach
    · rw [List.map_cons, List.mem_cons, not_or] at hnew
      have hi' := notMem_rename_update (n := old) hi hnew.1
      exact (hframe i hi' hnew.2).trans (ht₁.frame i hi')

/-! ## Replacement as renaming -/

/-- A replacement in a red-black tree puts the new node, whatever its record says, in the place
of the old one and changes nothing else: no link leads to the old node any more, whose own
record stays.  Replacing back restores the tree but for the record that the new node is left
with.  Many replacements lead to one tree in whatever order they are done, but for the records
that the replaced nodes are left with. -/
theorem replace_renames (h : t.Spells s) (hs : s.IsRedBlack) :
    (∀ old ∈ s.toList, ∀ new, new ∉ s.toList →
      ∃ t' t'', t.replace (some old) (some new) = .ok () t' ∧
        t.Renamed t' s (Function.update id old new) ∧
        (∀ i, i ∉ s.toList.map (Function.update id old new) → t'.record i = t.record i) ∧
        t'.Avoids (s.toList.map (Function.update id old new)) old ∧
        t'.replace (some new) (some old) = .ok () t'' ∧ t.SameBut t'' [new]) ∧
    ∀ pairs pairs', Swaps s.toList pairs → pairs.Perm pairs' →
      ∃ t' t'', t.replaceEach pairs = .ok () t' ∧ t.replaceEach pairs' = .ok () t'' ∧
        t.Renamed t' s (substitute pairs) ∧ t.Renamed t'' s (substitute pairs) ∧
        t'.SameBut t'' (pairs.map Prod.fst) := by
  constructor
  · intro old hold new hnew
    obtain ⟨t', hreplace, ht', hframe⟩ := h.replace_rename hs hold hnew
    have hs' : (s.rename (Function.update id old new)).IsRedBlack := isRedBlack_rename.mpr hs
    have hold' := old_notMem_rename hold hnew
    obtain ⟨t'', hback, ht'', hframe'⟩ := ht'.replace_rename hs' (new_mem_rename hold) hold'
    rw [rename_update_update hnew] at ht'' hframe'
    have hsame : t.SameBut t'' [new] := by
      refine h.sameBut ht'' fun i hi hne => ?_
      rw [List.mem_singleton] at hne
      exact (hframe' i hi).trans (hframe i (notMem_rename_update hi hne))
    have hholds : t'.Holds (s.toList.map (Function.update id old new)) :=
      ⟨_, ht', hs', toList_rename ..⟩
    rw [toList_rename] at hframe hold'
    exact ⟨t', t'', hreplace, h.renamed ht', hframe, hholds.avoids hold', hback, hsame⟩
  · intro pairs pairs' hp hperm
    obtain ⟨t', heach, ht', hframe⟩ := h.replaceEach hs hp
    obtain ⟨t'', heach', ht'', hframe'⟩ := h.replaceEach hs (hp.perm hperm)
    rw [← substitute_perm hperm hp.nodupOld] at ht''
    refine ⟨t', t'', heach, heach', h.renamed ht', h.renamed ht'', ?_⟩
    refine ht'.sameBut ht'' fun i hi hkept => ?_
    obtain ⟨his, hnew⟩ := hp.notMem_of_rename hi hkept
    have hnew' : i ∉ pairs'.map Prod.snd := fun hmem => hnew ((hperm.map _).mem_iff.mpr hmem)
    exact (hframe' i his hnew').trans (hframe i his hnew).symm

/-- The top and its left child go in either order, where the node that comes to the top names
other links before. -/
theorem replace_renames_of_stale :
    let s : Shape := .node .black (.node .red .leaf 3 .leaf) 5 (.node .red .leaf 8 .leaf)
    let t := (Tree.build {} s).setRecord 12 ⟨some 8, .black, some 5, none⟩
    (∃ t' t'', t.replace (some 5) (some 12) = .ok () t' ∧
      t.Renamed t' s (Function.update id 5 12) ∧
      (∀ i, i ∉ [3, 12, 8] → t'.record i = t.record i) ∧ t'.Avoids [3, 12, 8] 5 ∧
      t'.replace (some 12) (some 5) = .ok () t'' ∧ t.SameBut t'' [12]) ∧
    ∃ t' t'', t.replaceEach [(5, 12), (3, 4)] = .ok () t' ∧
      t.replaceEach [(3, 4), (5, 12)] = .ok () t'' ∧
      t.Renamed t' s (substitute [(5, 12), (3, 4)]) ∧
      t.Renamed t'' s (substitute [(5, 12), (3, 4)]) ∧ t'.SameBut t'' [5, 3] := by
  intro s t
  have h : t.Spells s :=
    ⟨rfl, (hangs_setRecord (by decide)).mpr (spells_build {} (by decide)).hangs, by decide⟩
  obtain ⟨hone, hmany⟩ := replace_renames h (by decide)
  exact ⟨hone 5 (by decide) 12 (by decide),
    hmany [(5, 12), (3, 4)] [(3, 4), (5, 12)]
      ⟨by decide, by decide, by decide, by decide⟩ (.swap ..)⟩

end Tree

end RedBlack
