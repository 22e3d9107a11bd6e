import RedBlack.Proofs.Tree.Walk

/-!
# Walks with children before their parent

A walk with children first leaves a node for good: what is still to come lies above the
node, or to the right of one of its ancestors.  So the records of the nodes it has met can
be given back while it goes on.

* `Path.earlier` and `Path.later` are the nodes met before and after what hangs in a place.
* `Spells.nextPostorder_eq` is one step.  It asks only for the records of the nodes not met
  so far, so that it holds of the tree as it was and of any tree in which the others were
  overwritten.
* `postorder_children_first` is the walk through a tree that stays as it is, and
  `postorder_of_overwritten` the walk of an owner who takes the tree down behind it.
-/

namespace RedBlack

/-! ## The order, seen from a place -/

namespace Shape

theorem perm_postorder (s : Shape) : s.postorder.Perm s.toList := by
  induction s with
  | leaf => exact .refl _
  | node c l n r ihl ihr =>
    have hsides : (l.postorder ++ r.postorder ++ [n]).Perm (l.toList ++ r.toList ++ [n]) :=
      (ihl.append ihr).append_right [n]
    have hlast : (l.toList ++ r.toList ++ [n]).Perm (n :: (l.toList ++ r.toList)) :=
      List.perm_append_singleton n _
    exact hsides.trans (hlast.trans List.perm_middle.symm)

@[simp] theorem mem_postorder {s : Shape} {i : NodeId} : i ∈ s.postorder ↔ i ∈ s.toList :=
  s.perm_postorder.mem_iff

/-- The walk ends at the top. -/
theorem getLast?_postorder (s : Shape) : s.postorder.getLast? = s.top := by
  cases s with
  | leaf => rfl
  | node c l n r => rw [postorder, List.getLast?_concat, top]

end Shape

namespace Path

open Shape

/-- The nodes met before what hangs in a place. -/
def earlier : Path → List NodeId
  | [] => []
  | f :: up =>
    match f.side with
    | .left => earlier up
    | .right => earlier up ++ f.other.postorder

/-- The nodes met after what hangs in a place. -/
def later : Path → List NodeId
  | [] => []
  | f :: up =>
    match f.side with
    | .left => f.other.postorder ++ f.id :: later up
    | .right => f.id :: later up

theorem postorder_fill (p : Path) (s : Shape) :
    (p.fill s).postorder = earlier p ++ s.postorder ++ later p := by
  induction p generalizing s with
  | nil => simp [fill, earlier, later]
  | cons f up ih =>
    cases h : f.side <;>
      simp [fill, ih, earlier, later, Frame.close, Shape.branch, Shape.postorder, h]

end Path

namespace Tree

open Shape

variable {t t' : Tree} {s : Shape}

/-! ## Down to the first leaf -/

/-- The way down goes to the left where it can, and so does the order. -/
theorem loop_firstLeaf {q : Option NodeId} {n : NodeId} {rounds : Nat}
    (hs : s.Hangs t.store q) (hn : s.top = some n) (hr : s.toList.length ≤ rounds) :
    ∃ m, loop (firstLeaf.advance t) rounds n = .ok m ∧ s.postorder.head? = some m := by
  induction s generalizing q n rounds with
  | leaf => cases hn
  | node c l k r ihl ihr =>
    cases hn
    obtain ⟨⟨-, -, hleft, hother⟩, hl, hr'⟩ := (hangs_branch (d := .left)).mp hs
    have hright : t.child k .right = r.top := hother
    rw [Shape.toList, List.length_append, List.length_cons] at hr
    obtain ⟨rounds, rfl⟩ : ∃ j, rounds = j + 1 := ⟨rounds - 1, by omega⟩
    have hlr : l.toList.length ≤ rounds ∧ r.toList.length ≤ rounds := by omega
    rw [Shape.postorder, List.append_assoc]
    cases hlk : l.top with
    | some a =>
      have hstep : firstLeaf.advance t k = .ok (.again a) := by
        simp only [firstLeaf.advance, hleft, hlk]
      obtain ⟨m, hloop, hhead⟩ := ihl hl hlk hlr.1
      refine ⟨m, ?_, ?_⟩
      · rw [loop_of_again hstep, hloop]
      · rw [List.head?_append, hhead]
        rfl
    | none =>
      rw [top_eq_none_iff.mp hlk]
      cases hrk : r.top with
      | some a =>
        have hstep : firstLeaf.advance t k = .ok (.again a) := by
          simp only [firstLeaf.advance, hleft, hlk, hright, hrk]
        obtain ⟨m, hloop, hhead⟩ := ihr hr' hrk hlr.2
        refine ⟨m, ?_, ?_⟩
        · rw [loop_of_again hstep, hloop]
        · rw [Shape.postorder, List.nil_append, List.head?_append, hhead]
          rfl
      | none =>
        have hstep : firstLeaf.advance t k = .ok (.done k) := by
          simp only [firstLeaf.advance, hleft, hlk, hright, hrk]
        refine ⟨k, loop_of_done hstep rounds, ?_⟩
        rw [top_eq_none_iff.mp hrk]
        rfl

theorem firstLeaf_eq {q : Option NodeId} {n : NodeId} (hs : s.Hangs t.store q)
    (hn : s.top = some n) (hr : s.toList.length ≤ t.bound) :
    some <$> t.firstLeaf n = .ok s.postorder.head? := by
  obtain ⟨m, hloop, hhead⟩ := loop_firstLeaf hs hn hr
  rw [firstLeaf, hloop, hhead]
  rfl

theorem Spells.firstPostorder_eq (h : t.Spells s) :
    t.firstPostorder = .ok s.postorder.head? := by
  rw [firstPostorder, h.top]
  cases hn : s.top with
  | none =>
    rw [top_eq_none_iff.mp hn]
    rfl
  | some n => exact firstLeaf_eq h.hangs hn h.length_le_bound

/-- What hangs below a node is no more than there are records. -/
theorem length_le_of_hangs {q : NodeId} (hs : s.Hangs t.store (some q))
    (hnodup : s.toList.Nodup) : s.toList.length ≤ t.bound :=
  Nat.le_succ_of_le (length_le_of_nodup hnodup fun _ hi => lt_size_of_hangs hs hi)

/-! ## One step -/

/-- A node that is no left child is followed by its parent. -/
theorem nextPostorder_of_right {n k : NodeId} (hparent : t.parent n = some k)
    (hleft : t.child k .left ≠ some n) : t.nextPostorder n = .ok (some k) := by
  rw [nextPostorder, hparent]
  cases hright : t.child k .right with
  | none => simp only [hright]
  | some m => simp only [hright, if_neg hleft]

/-- A left child is followed by what hangs in the right slot of its parent, and only then by
the parent. -/
theorem nextPostorder_of_left {n k : NodeId} (hparent : t.parent n = some k)
    (hleft : t.child k .left = some n) (hright : t.child k .right = s.top)
    (hs : s.Hangs t.store (some k)) (hnodup : s.toList.Nodup) (rest : List NodeId) :
    t.nextPostorder n = .ok (s.postorder ++ k :: rest).head? := by
  rw [nextPostorder, hparent]
  cases hm : s.top with
  | none =>
    simp only [hright, hm]
    rw [top_eq_none_iff.mp hm]
    rfl
  | some m =>
    simp only [hright, hm, if_pos hleft]
    have hne : s.postorder ≠ [] := List.ne_nil_of_mem (mem_postorder.mpr (mem_toList_of_top hm))
    rw [List.head?_append_of_ne_nil _ hne]
    exact firstLeaf_eq hs hm (length_le_of_hangs hs hnodup)

/-- A step from the node in a place reads that node, the node over it and, from the left
slot, what hangs in the right one.  All of these are met later or now. -/
theorem Spells.nextPostorder_fill {p : Path} {c : Color} {n : NodeId} {x y : Shape}
    (h : t.Spells (p.fill (node c x n y)))
    (hkeep : ∀ i ∈ n :: p.later, t'.record i = t.record i) :
    t'.nextPostorder n = .ok p.later.head? := by
  obtain ⟨haround, hhangs, -, hp, hdisj⟩ := spells_fill_iff.mp h
  rw [List.forall_mem_cons] at hkeep
  obtain ⟨hn, hlater⟩ := hkeep
  have hparent : t'.parent n = p.parent := by
    rw [parent, hn]
    exact parent_of_hangs hhangs rfl
  cases p with
  | nil =>
    simp only [nextPostorder, hparent, Path.parent]
    rfl
  | cons f up =>
    obtain ⟨⟨-, -, hhole, hother⟩, hbeside, -⟩ := haround
    have hf : t'.record f.id = t.record f.id := by
      refine hlater f.id ?_
      cases hd : f.side <;> simp [Path.later, hd]
    have hchild : ∀ d, t'.child f.id d = t.child f.id d := by
      intro d
      rw [child, child, hf]
    cases hd : f.side with
    | right =>
      rw [hd] at hother
      have hnodes : n ∉ Path.nodes (f :: up) := hdisj (mem_toList_of_top rfl)
      rw [Path.mem_nodes_cons, not_or, not_or] at hnodes
      have hleft : t'.child f.id .left ≠ some n := by
        rw [hchild]
        exact fun hn => top_ne_of_notMem hnodes.2.1 (hother.symm.trans hn)
      rw [nextPostorder_of_right hparent hleft, Path.later, hd]
      rfl
    | left =>
      rw [hd] at hhole hother
      rw [Path.later, hd] at hlater ⊢
      rw [Path.nodes, List.nodup_cons, List.nodup_append'] at hp
      obtain ⟨-, hnodup, -⟩ := hp
      -- What hangs in the right slot was not met, so that it still hangs there.
      have hbeside' : f.other.Hangs t'.store (some f.id) := by
        refine hbeside.congr fun i hi => hlater i ?_
        exact List.mem_append_left _ (mem_postorder.mpr hi)
      exact nextPostorder_of_left hparent ((hchild .left).trans hhole)
        ((hchild .right).trans hother) hbeside' hnodup (Path.later up)

/-- The place of a node of the walk: its subtree comes right before it, and the nodes
later than its place right after. -/
theorem Spells.exists_postorder_place (h : t.Spells s) {l r : List NodeId} {n : NodeId}
    (hs : s.postorder = l ++ n :: r) :
    ∃ (p : Path) (c : Color) (x y : Shape), s = p.fill (node c x n y) ∧
      l = p.earlier ++ (x.postorder ++ y.postorder) ∧ r = p.later := by
  have hmem : n ∈ s.toList := by
    rw [← mem_postorder, hs]
    exact List.mem_append_right l List.mem_cons_self
  have hnodup : s.postorder.Nodup := s.perm_postorder.nodup_iff.mpr h.nodup
  obtain ⟨p, c, x, y, -, rfl⟩ := exists_focus? hmem
  refine ⟨p, c, x, y, rfl, ?_⟩
  -- A node occurs once, so that the two ways to cut the list are one.
  have hcut : (p.fill (node c x n y)).postorder =
      (p.earlier ++ (x.postorder ++ y.postorder)) ++ n :: p.later := by
    rw [Path.postorder_fill, Shape.postorder]
    simp
  rw [hcut] at hs hnodup
  rw [List.nodup_middle, List.nodup_cons, List.mem_append, not_or] at hnodup
  obtain ⟨hl, -, hr⟩ := (List.append_cons_inj_of_notMem hnodup.1.1 hnodup.1.2).mp hs
  exact ⟨hl.symm, hr.symm⟩

/-- A step leads to the next node, as long as the nodes not met before it have the records
that they had. -/
theorem Spells.nextPostorder_eq (h : t.Spells s) {l r : List NodeId} {n : NodeId}
    (hs : s.postorder = l ++ n :: r) (hkeep : ∀ i, i ∉ l → t'.record i = t.record i) :
    t'.nextPostorder n = .ok r.head? := by
  have hnodup : s.postorder.Nodup := s.perm_postorder.nodup_iff.mpr h.nodup
  rw [hs, List.nodup_append'] at hnodup
  obtain ⟨-, -, hdisj⟩ := hnodup
  obtain ⟨p, c, x, y, rfl, -, rfl⟩ := h.exists_postorder_place hs
  exact h.nextPostorder_fill fun i hi => hkeep i fun hl => hdisj hl hi

/-! ## A walk through a tree that stays -/

/-- Both children of a node are met before it. -/
theorem Spells.mem_of_child (h : t.Spells s) {l r : List NodeId} {n c : NodeId}
    (hs : s.postorder = l ++ n :: r) {d : Side} (hc : t.child n d = some c) : c ∈ l := by
  obtain ⟨p, color, x, y, rfl, rfl, -⟩ := h.exists_postorder_place hs
  obtain ⟨-, hhangs, -⟩ := spells_fill_iff.mp h
  obtain ⟨⟨-, -, hleft, hright⟩, -⟩ := (hangs_branch (d := .left)).mp hhangs
  refine List.mem_append_right _ (List.mem_append.mpr ?_)
  cases d with
  | left => exact .inl (mem_postorder.mpr (mem_toList_of_top (hleft.symm.trans hc)))
  | right => exact .inr (mem_postorder.mpr (mem_toList_of_top (hright.symm.trans hc)))

/-- In any tree whose links fit together, whatever its colours, its balance and its keys,
the walk ends and meets every node once, each after both of its children, and the top
last. -/
theorem postorder_children_first (h : t.Spells s) :
    t.firstPostorder = .ok s.postorder.head? ∧
      (∀ l n r, s.postorder = l ++ n :: r → t.nextPostorder n = .ok r.head?) ∧
      t.postorder = .ok s.postorder ∧
      s.postorder.Nodup ∧ s.postorder.Perm s.toList ∧
      (∀ l n r, s.postorder = l ++ n :: r → ∀ d c, t.child n d = some c → c ∈ l) ∧
      s.postorder.getLast? = t.top := by
  have hnext : ∀ l n r, s.postorder = l ++ n :: r → t.nextPostorder n = .ok r.head? :=
    fun l n r hs => h.nextPostorder_eq hs fun _ _ => rfl
  have hbound : s.postorder.length ≤ t.bound := by
    rw [s.perm_postorder.length_eq]
    exact h.length_le_bound
  have hwalk : t.postorder = .ok s.postorder := by
    rw [postorder, h.firstPostorder_eq]
    exact collect_eq hnext hbound
  have htop : s.postorder.getLast? = t.top := s.getLast?_postorder.trans h.top.symm
  exact ⟨h.firstPostorder_eq, hnext, hwalk, s.perm_postorder.nodup_iff.mpr h.nodup,
    s.perm_postorder, fun l n r hs d c hc => h.mem_of_child hs hc, htop⟩

/-- Two red chains below a red top, of which one leans to the right and turns, with no order
of keys. -/
theorem postorder_children_first_of_leaning :
    let s : Shape := .node .red
      (.node .red .leaf 7 (.node .black (.node .red .leaf 3 .leaf) 9 .leaf)) 5
      (.node .black .leaf 8 .leaf)
    let t := Tree.build {} s
    t.Spells s ∧ t.firstPostorder = .ok (some 3) ∧
      (∀ l n r, [3, 9, 7, 8, 5] = l ++ n :: r → t.nextPostorder n = .ok r.head?) ∧
      t.postorder = .ok [3, 9, 7, 8, 5] ∧
      [3, 9, 7, 8, 5].Nodup ∧ [3, 9, 7, 8, 5].Perm [7, 3, 9, 5, 8] ∧
      (∀ l n r, [3, 9, 7, 8, 5] = l ++ n :: r → ∀ d c, t.child n d = some c → c ∈ l) ∧
      [3, 9, 7, 8, 5].getLast? = some 5 := by
  intro s t
  have h : t.Spells s := spells_build {} (by decide)
  exact ⟨h, postorder_children_first h⟩

/-! ## A walk with the tree taken down behind it -/

/-- The nodes that a walk meets from a node on, while the records behind it are overwritten.
When the walk has met `met` and knows the node that comes next, `overwrite met` is done to
the tree, and the walk goes on in what that leaves. -/
def takeDown (overwrite : List NodeId → Tree → Tree) :
    (rounds : Nat) → Tree → (met : List NodeId) → Option NodeId → Except Fault (List NodeId)
  | _, _, _, none => .ok []
  | 0, _, _, some _ => .error .endless
  | rounds + 1, t, met, some n => do
    let after ← t.nextPostorder n
    let rest ← takeDown overwrite rounds (overwrite (met ++ [n]) t) (met ++ [n]) after
    return n :: rest

/-- From any point of the walk on, where only the records of the nodes met before may differ,
the remaining nodes are met. -/
theorem Spells.collect_postorder (h : t.Spells s) {l r : List NodeId}
    (hs : s.postorder = l ++ r) (hkeep : ∀ i, i ∉ l → t'.record i = t.record i) {rounds : Nat}
    (hr : r.length ≤ rounds) : collect t'.nextPostorder rounds r.head? = .ok r := by
  refine collect_eq (fun l' n r' hr => ?_) hr
  have hcut : s.postorder = (l ++ l') ++ n :: r' := by rw [hs, hr, List.append_assoc]
  refine h.nextPostorder_eq hcut fun i hi => hkeep i fun hl => hi ?_
  exact List.mem_append_left l' hl

/-- The whole walk. -/
theorem Spells.postorder_eq (h : t.Spells s) : t.postorder = .ok s.postorder := by
  have hbound : s.postorder.length ≤ t.bound := by
    rw [s.perm_postorder.length_eq]
    exact h.length_le_bound
  rw [postorder, h.firstPostorder_eq]
  exact h.collect_postorder (l := []) rfl (fun _ _ => rfl) hbound

/-- The induction is on the nodes that remain.  What holds in between is that the nodes not
met have the records that they had at the beginning. -/
theorem Spells.takeDown_eq (h : t.Spells s) {overwrite : List NodeId → Tree → Tree}
    (hbehind : ∀ met u i, i ∉ met → (overwrite met u).record i = u.record i)
    {l r : List NodeId} (hs : s.postorder = l ++ r)
    (hkeep : ∀ i, i ∉ l → t'.record i = t.record i) {rounds : Nat} (hr : r.length ≤ rounds) :
    takeDown overwrite rounds t' l r.head? = .ok r := by
  induction r generalizing l t' rounds with
  | nil => cases rounds <;> rfl
  | cons n r ih =>
    rw [List.length_cons] at hr
    obtain ⟨rounds, rfl⟩ : ∃ j, rounds = j + 1 := ⟨rounds - 1, by omega⟩
    have hnext : t'.nextPostorder n = .ok r.head? := h.nextPostorder_eq hs hkeep
    have hrest : takeDown overwrite rounds (overwrite (l ++ [n]) t') (l ++ [n]) r.head? =
        .ok r := by
      apply ih
      · rw [hs, List.append_assoc]
        rfl
      · intro i hi
        rw [hbehind _ _ i hi]
        exact hkeep i fun hl => hi (List.mem_append_left [n] hl)
      · omega
    simp only [List.head?_cons, takeDown, hnext]
    show (do
      let rest ← takeDown overwrite rounds (overwrite (l ++ [n]) t') (l ++ [n]) r.head?
      return n :: rest) = _
    rw [hrest]
    rfl

/-- Once the node after another one is known, the records of all nodes before it may hold
anything: the walk meets the same remaining nodes and ends where it would have ended.  So
an owner who overwrites any of them, again after every step, still meets every node. -/
theorem postorder_of_overwritten (h : t.Spells s) :
    (∀ l m r, s.postorder = l ++ m :: r →
      ∀ t' : Tree, (∀ i, i ∉ l → t'.record i = t.record i) →
        (∀ l' n r', m :: r = l' ++ n :: r' → t'.nextPostorder n = t.nextPostorder n) ∧
          collect t.nextPostorder t.bound (some m) = .ok (m :: r) ∧
          collect t'.nextPostorder t.bound (some m) = .ok (m :: r)) ∧
      ∀ overwrite : List NodeId → Tree → Tree,
        (∀ met u i, i ∉ met → (overwrite met u).record i = u.record i) →
          (do takeDown overwrite t.bound t [] (← t.firstPostorder)) = .ok s.postorder := by
  have hbound : s.postorder.length ≤ t.bound := by
    rw [s.perm_postorder.length_eq]
    exact h.length_le_bound
  constructor
  · intro l m r hs t' hkeep
    have hr : (m :: r).length ≤ t.bound := by
      rw [hs, List.length_append] at hbound
      omega
    refine ⟨fun l' n r' hr => ?_, h.collect_postorder hs (fun _ _ => rfl) hr,
      h.collect_postorder hs hkeep hr⟩
    have hcut : s.postorder = (l ++ l') ++ n :: r' := by rw [hs, hr, List.append_assoc]
    have hkept : t'.nextPostorder n = .ok r'.head? :=
      h.nextPostorder_eq hcut fun i hi => hkeep i fun hl => hi (List.mem_append_left l' hl)
    have hnext : t.nextPostorder n = .ok r'.head? := h.nextPostorder_eq hcut fun _ _ => rfl
    rw [hkept, hnext]
  · intro overwrite hbehind
    rw [h.firstPostorder_eq]
    exact h.takeDown_eq hbehind (l := []) rfl (fun _ _ => rfl) hbound

/-- Writing the records of some nodes keeps those of the others. -/
theorem record_foldl_setRecord {ns : List NodeId} {i : NodeId} (hi : i ∉ ns)
    (r : NodeId → Record) (u : Tree) :
    (ns.foldl (fun u n => u.setRecord n (r n)) u).record i = u.record i := by
  induction ns generalizing u with
  | nil => rfl
  | cons n ns ih =>
    rw [List.mem_cons, not_or] at hi
    rw [List.foldl_cons, ih hi.2, record_setRecord_of_ne hi.1]

/-- Nodes met before come to point at nodes that are still to come, and at themselves. -/
theorem postorder_of_overwritten_by_links :
    let s : Shape := .node .red
      (.node .red .leaf 7 (.node .black (.node .red .leaf 3 .leaf) 9 .leaf)) 5
      (.node .black .leaf 8 .leaf)
    let t := Tree.build {} s
    let astray (n : NodeId) : Record := ⟨some 8, .black, some 7, some n⟩
    let overwrite (met : List NodeId) (u : Tree) : Tree :=
      met.foldl (fun u n => u.setRecord n (astray n)) u
    t.Spells s ∧
      collect t.nextPostorder t.bound (some 7) = .ok [7, 8, 5] ∧
      collect (overwrite [3, 9] t).nextPostorder t.bound (some 7) = .ok [7, 8, 5] ∧
      (do takeDown overwrite t.bound t [] (← t.firstPostorder)) = .ok [3, 9, 7, 8, 5] := by
  intro s t astray overwrite
  have h : t.Spells s := spells_build {} (by decide)
  have hbehind : ∀ met u i, i ∉ met → (overwrite met u).record i = u.record i :=
    fun met u i hi => record_foldl_setRecord hi astray u
  obtain ⟨hpoint, hrun⟩ := postorder_of_overwritten h
  obtain ⟨-, hstay, hkept⟩ := hpoint [3, 9] 7 [8, 5] rfl (overwrite [3, 9] t) (hbehind [3, 9] t)
  exact ⟨h, hstay, hkept, hrun overwrite hbehind⟩

end Tree

end RedBlack
