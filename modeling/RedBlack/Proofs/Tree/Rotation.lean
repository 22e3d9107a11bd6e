import RedBlack.Proofs.Shape.Insertion
import RedBlack.Proofs.Tree.Around

/-!
# Rotations of link records

Every rotation of the repairs is `rotate`, or the lower half of one that the upper
half of the next rotation completes.

* `Spells.reshapes_rotate` is the one proof about the records of a rotation.
* `rotate_congr` says what a rotation overwrites, so that what a lower half leaves undone
  is no matter.
* `Spells.reshapes_liftInner_liftOuter` and `Spells.reshapes_liftNear_closeDeficit` are the
  double rotations of the two repairs.
-/

namespace RedBlack.Tree

open Shape

/-- A rotation that lifts `m`, the child of `n` in slot `d`, to the place and colour of
`n`, which hangs below it in colour `c`. -/
def rotate (t : Tree) (n m : NodeId) (d : Side) (c : Color) : Tree :=
  ((t.swing n m d).adopt (t.child m d.opposite) n).liftAbove n m c

/-- A rotation but for the slot that held `n`. -/
def turn (t : Tree) (n m : NodeId) (d : Side) (c : Color) : Tree :=
  (((((t.swing n m d).adopt (t.child m d.opposite) n).setParent m (t.parent n)).setColor m
    (t.color n)).setParent n (some m)).setColor n c

theorem rotate_eq {t : Tree} {n m : NodeId} {d : Side} (c : Color)
    (hinner : t.child m d.opposite ≠ some n) :
    t.rotate n m d c = (t.turn n m d c).redirect n (some m) (t.parent n) := by
  have hparent : ((t.swing n m d).adopt (t.child m d.opposite) n).parent n = t.parent n := by
    rw [parent_adopt, if_neg hinner]
    simp [swing]
  have hcolor : ((t.swing n m d).adopt (t.child m d.opposite) n).color n = t.color n := by
    simp [swing]
  simp only [rotate, liftAbove, turn, hparent, hcolor]

section Turn

variable (t : Tree) (n m i : NodeId) (d e : Side) (c : Color)

theorem parent_turn :
    (t.turn n m d c).parent i =
      if i = n then some m
      else if i = m then t.parent n
      else if t.child m d.opposite = some i then some n else t.parent i := by
  simp [turn, swing, parent_setParent, parent_adopt]

theorem color_turn :
    (t.turn n m d c).color i = if i = n then c else if i = m then t.color n else t.color i := by
  simp [turn, swing, color_setColor]

theorem child_turn :
    (t.turn n m d c).child i e =
      if i = m ∧ e = d.opposite then some n
      else if i = n ∧ e = d then t.child m d.opposite else t.child i e := by
  simp [turn, swing, child_setChild]

@[simp] theorem top_turn : (t.turn n m d c).top = t.top := by
  simp [turn, swing]

variable {t n m i d}

/-- A rotation writes three nodes: the two that change places and what goes from the one to
the other. -/
theorem record_turn_of_ne (hin : i ≠ n) (him : i ≠ m) (hinner : t.child m d.opposite ≠ some i) :
    (t.turn n m d c).record i = t.record i := by
  rw [turn, swing, record_setColor_of_ne hin, record_setParent_of_ne hin,
    record_setColor_of_ne him, record_setParent_of_ne him, record_adopt_of_ne hinner,
    record_setChild_of_ne him, record_setChild_of_ne hin]

theorem hangs_turn {s y : Shape} {q : Option NodeId} (hy : t.child m d.opposite = y.top)
    (hn : n ∉ s.toList) (hm : m ∉ s.toList) (hdisj : y.toList.Disjoint s.toList) :
    s.Hangs (t.turn n m d c).store q ↔ s.Hangs t.store q := by
  refine hangs_congr fun i hi => ?_
  refine record_turn_of_ne c (ne_of_mem_of_not_mem hi hn) (ne_of_mem_of_not_mem hi hm) ?_
  rw [hy]
  exact top_ne_of_notMem fun hiy => hdisj hiy hi

theorem around_turn {y : Shape} {up : Path} {hole : Option NodeId}
    (hy : t.child m d.opposite = y.top) (hn : n ∉ up.nodes) (hm : m ∉ up.nodes)
    (hdisj : y.toList.Disjoint up.nodes) :
    (t.turn n m d c).Around up hole ↔ t.Around up hole := by
  refine around_congr (top_turn ..) fun i hi => ?_
  refine record_turn_of_ne c (ne_of_mem_of_not_mem hi hn) (ne_of_mem_of_not_mem hi hm) ?_
  rw [hy]
  exact top_ne_of_notMem fun hiy => hdisj hiy hi

/-- What is handed over hangs below `n`. -/
theorem hangs_turn_self {y : Shape} {q : Option NodeId} (hy : t.child m d.opposite = y.top)
    (hn : n ∉ y.toList) (hm : m ∉ y.toList) (hnodup : y.toList.Nodup) (h : y.Hangs t.store q) :
    y.Hangs (t.turn n m d c).store (some n) := by
  have hswing : y.Hangs (t.swing n m d).store q := by
    simpa only [swing, hangs_setChild, hn, hm, not_false_eq_true] using h
  have hadopt := hangs_adopt_self hswing hnodup n
  simpa only [turn, hy, hangs_setColor, hangs_setParent, hn, hm, not_false_eq_true] using hadopt

end Turn

/-! ## The records after a rotation -/

/-- The slot that held `n` holds `m` after the rotation. -/
theorem Spells.rotate_eq_fill {t : Tree} {up : Path} {d : Side} {c c' : Color} {n m : NodeId}
    {x y z : Shape} (h : t.Spells (up.fill (branch d c n (branch d c' m x y) z)))
    (c'' : Color) :
    (t.turn n m d c'').Around up (some n) ∧
      t.rotate n m d c'' = (t.turn n m d c'').fill up.slot (some m) := by
  obtain ⟨haround, hhangs, hnodup, -, hdisj⟩ := spells_fill_iff.mp h
  obtain ⟨⟨hnp, -⟩, hm, -⟩ := hangs_branch.mp hhangs
  obtain ⟨⟨-, -, -, hmo⟩, -⟩ := hangs_branch.mp hm
  simp only [nodup_toList_branch, disjoint_toList_branch, mem_toList_branch, not_or]
    at hnodup hdisj
  obtain ⟨⟨-, -, hny⟩, -⟩ := hnodup
  obtain ⟨hnup, ⟨hmup, -, hyup⟩, -⟩ := hdisj
  have hinner : t.child m d.opposite ≠ some n := hmo ▸ top_ne_of_notMem hny
  rw [top_branch] at haround
  have hturn : (t.turn n m d c'').Around up (some n) :=
    (around_turn c'' hmo hnup hmup hyup).mpr haround
  exact ⟨hturn, by rw [rotate_eq c'' hinner, hnp, hturn.redirect_eq hnup]⟩

/-- The records after a rotation spell the shape with `m` over `n`. -/
theorem Spells.reshapes_rotate {t : Tree} {up : Path} {d : Side} {c c' : Color} {n m : NodeId}
    {x y z : Shape} (h : t.Spells (up.fill (branch d c n (branch d c' m x y) z)))
    (c'' : Color) :
    t.Reshapes (t.rotate n m d c'') (up.fill (branch d c m x (branch d c'' n y z))) := by
  have hlist : (branch d c m x (branch d c'' n y z)).toList =
      (branch d c n (branch d c' m x y) z).toList := by
    cases d <;> simp [branch, Shape.toList]
  obtain ⟨hturn, hrotate⟩ := h.rotate_eq_fill c''
  obtain ⟨-, hhangs, hnodup, hup, hdisj⟩ := spells_fill_iff.mp h
  obtain ⟨⟨hnp, hnc, -, hno⟩, hm, hz⟩ := hangs_branch.mp hhangs
  obtain ⟨⟨-, -, hmd, hmo⟩, hx, hy⟩ := hangs_branch.mp hm
  simp only [nodup_toList_branch, disjoint_toList_branch, mem_toList_branch, not_or]
    at hnodup hdisj
  obtain ⟨⟨hnm, hnx, hny⟩, hnz, ⟨hmx, hmy, -, hynd, hxy⟩, -, hmz, hxz, hyz⟩ := hnodup
  obtain ⟨hnup, ⟨hmup, hxup, hyup⟩, hzup⟩ := hdisj
  have hmn : m ≠ n := Ne.symm hnm
  rw [hrotate]
  constructor
  · refine spells_fill_iff.mpr ⟨?_, ?_, hlist ▸ spells_fill_iff.mp h |>.2.2⟩
    · rw [top_branch]
      exact hturn.fill hup _
    · refine hangs_branch.mpr ⟨⟨?_, ?_, ?_, ?_⟩, ?_, hangs_branch.mpr ⟨⟨?_, ?_, ?_, ?_⟩, ?_, ?_⟩⟩
      · simp [parent_turn, hmn, hnp]
      · simp [color_turn, hmn, hnc]
      · simp [child_turn, child_fill_slot, hmn, hmd, hmup, d.opposite_ne.symm]
      · simp [child_turn, child_fill_slot, hmup]
      · rw [hangs_fill hxup]
        exact (hangs_turn c'' hmo hnx hmx (List.disjoint_symm hxy)).mpr hx
      · simp [parent_turn]
      · simp [color_turn]
      · simp [child_turn, child_fill_slot, hnup, hnm, hmo]
      · simp [child_turn, child_fill_slot, hnup, hnm, hno, d.opposite_ne]
      · rw [hangs_fill hyup]
        exact hangs_turn_self c'' hmo hny hmy hynd hy
      · rw [hangs_fill hzup]
        exact (hangs_turn c'' hmo hnz hmz hyz).mpr hz
  · intro i hi
    simp only [Path.mem_toList_fill, mem_toList_branch, not_or] at hi
    obtain ⟨⟨him, hix, hin, hiy, hiz⟩, hiup⟩ := hi
    rw [record_fill_slot hiup]
    refine record_turn_of_ne c'' hin him ?_
    rw [hmo]
    exact top_ne_of_notMem hiy

/-! ## What a rotation overwrites -/

theorem child_redirect_congr {t t' : Tree} (h : ∀ i e, t'.child i e = t.child i e) (n : NodeId)
    (c q : Option NodeId) (i : NodeId) (e : Side) :
    (t'.redirect n c q).child i e = (t.redirect n c q).child i e := by
  cases q with
  | none => exact h i e
  | some p =>
    simp only [redirect, h]
    split <;> simp only [child_setChild, h]

theorem top_redirect_congr {t t' : Tree} (h : t'.top = t.top) (n : NodeId) (c q : Option NodeId) :
    (t'.redirect n c q).top = (t.redirect n c q).top := by
  cases q with
  | none => rfl
  | some p =>
    simp only [redirect]
    split <;> split <;> exact h

/-- A rotation that lifts `m` above `n` reads neither the parent nor the colour of `m`,
nor the slot of `n` that holds `m`: it overwrites them. -/
theorem rotate_congr {t t' : Tree} {n m : NodeId} {d : Side} (c : Color) (hmn : m ≠ n)
    (hinner : t.child m d.opposite ≠ some n) (htop : t'.top = t.top)
    (hparent : ∀ i, i ≠ m → t'.parent i = t.parent i)
    (hcolor : ∀ i, i ≠ m → t'.color i = t.color i)
    (hchild : ∀ i e, ¬(i = n ∧ e = d) → t'.child i e = t.child i e) :
    (t.rotate n m d c).SameRecords (t'.rotate n m d c) := by
  have hchildm : t'.child m d.opposite = t.child m d.opposite := hchild _ _ fun h => hmn h.1
  have hparentn : t'.parent n = t.parent n := hparent n hmn.symm
  have hcolorn : t'.color n = t.color n := hcolor n hmn.symm
  rw [rotate_eq c hinner, rotate_eq c (by rwa [hchildm]), hparentn]
  refine .of_fields (top_redirect_congr (by simp [htop]) ..) (fun i => ?_) (fun i => ?_)
    fun i e => child_redirect_congr (fun i e => ?_) ..
  · rw [parent_redirect, parent_redirect, parent_turn, parent_turn, hchildm, hparentn]
    by_cases him : i = m
    · simp [him, hmn]
    · rw [hparent i him]
  · rw [color_redirect, color_redirect, color_turn, color_turn, hcolorn]
    by_cases him : i = m
    · simp [him, hmn]
    · rw [hcolor i him]
  · rw [child_turn, child_turn, hchildm]
    by_cases hi : i = n ∧ e = d
    · simp [hi, hmn.symm]
    · rw [hchild i e hi]

/-! ## The repair of a red node -/

theorem liftOuter_eq_rotate (t : Tree) (g p : NodeId) (d : Side) :
    t.liftOuter g p d = t.rotate g p d .red := rfl

/-- The red node `p`, an outer child of the red kind, is lifted to the place of `g`. -/
theorem Spells.reshapes_liftOuter {t : Tree} {up : Path} {d : Side} {c c' : Color}
    {g p : NodeId} {x y z : Shape}
    (h : t.Spells (up.fill (branch d c g (branch d c' p x y) z))) :
    t.Reshapes (t.liftOuter g p d) (up.fill (branch d c p x (branch d .red g y z))) :=
  h.reshapes_rotate .red

/-- A double rotation: the node `n`, the inner child of the red node `p`, comes to the
place of `g` with `p` and `g` on its two sides. -/
theorem Spells.reshapes_liftInner_liftOuter {t : Tree} {up : Path} {d : Side} {c c' : Color}
    {g p n : NodeId} {w x y z : Shape}
    (h : t.Spells (up.fill (branch d c g (branch d .red p w (branch d c' n x y)) z))) :
    t.Reshapes ((t.liftInner p n d.opposite).liftOuter g n d)
      (up.fill (branch d c n (branch d .red p w x) (branch d .red g y z))) := by
  -- The same node seen from the other side, below the frame of `g`.
  have hp : t.Spells (Path.fill (⟨d, c, g, z⟩ :: up)
      (branch d.opposite .red p (branch d.opposite c' n y x) w)) := by
    rw [branch_opposite, branch_opposite]
    exact h
  have hlower := hp.reshapes_rotate .red
  have hrotate := (hp.rotate_eq_fill .red).2
  rw [branch_opposite, branch_opposite] at hlower
  have hlifted : t.Reshapes (t.rotate p n d.opposite .red)
      (up.fill (branch d c g (branch d .red n (branch d .red p w x) y) z)) := hlower
  have hboth := hlifted.trans hlifted.spells.reshapes_liftOuter fun i => by
    simp only [Path.mem_toList_fill, mem_toList_branch]
    tauto
  refine hboth.congr ?_
  obtain ⟨-, hhangs, hnodup, -, hdisj⟩ := spells_fill_iff.mp hp
  obtain ⟨⟨hpp, hpc, -⟩, hn, -⟩ := hangs_branch.mp hhangs
  obtain ⟨⟨-, -, hnd, -⟩, -⟩ := hangs_branch.mp hn
  simp only [nodup_toList_branch, disjoint_toList_branch, mem_toList_branch, not_or, Path.nodes,
    List.mem_cons, List.mem_append] at hnodup hdisj
  obtain ⟨⟨hpn, -⟩, -⟩ := hnodup
  obtain ⟨⟨hpg, -⟩, ⟨⟨hng, -⟩, hy, -⟩, -⟩ := hdisj
  -- What the lower half leaves undone is what the upper half overwrites.
  have hgy : g ∉ y.toList := fun hi => hy hi List.mem_cons_self
  rw [liftOuter_eq_rotate, liftOuter_eq_rotate]
  rw [hrotate]
  refine rotate_congr .red hng ?_ ?_ ?_ ?_ ?_
  · have hgn : g ≠ n := Ne.symm hng
    have hnp : n ≠ p := Ne.symm hpn
    simpa [child_fill, child_turn, Path.slot, hnd, hgn, hnp, d.opposite_ne] using
      top_ne_of_notMem hgy
  · simp [liftInner, swing, Path.slot, fill]
  · intro i hi
    simp [liftInner, swing, parent_setParent, parent_adopt, parent_turn, hi]
  · intro i hi
    by_cases hip : i = p
    · simp [liftInner, swing, color_turn, hip, hpc]
    · simp [liftInner, swing, color_turn, hi, hip]
  · intro i e hie
    have hslot : Slot.under g d ≠ .under i e := by
      rintro ⟨⟩
      exact hie ⟨rfl, rfl⟩
    simp [liftInner, swing, child_turn, child_fill, child_setChild, Path.slot, hslot]

/-! ## The repair of a deficit -/

theorem lowerShort_eq {t : Tree} {p s near : NodeId} {d : Side}
    (h : t.child s d.opposite = some near) :
    t.lowerShort p s d = .ok (t.rotate p s d .red, near) := by
  simp only [lowerShort, rotate, h, adopt]

/-- What `t` and `t'` may differ in before `closeDeficit`, which lifts `s` and paints
`far`: the parents and the colours of the two. -/
structure AgreeBut (s far : NodeId) (t t' : Tree) : Prop where
  top : t'.top = t.top
  parent : ∀ i, i ≠ s → i ≠ far → t'.parent i = t.parent i
  color : ∀ i, i ≠ s → i ≠ far → t'.color i = t.color i
  child : ∀ i e, t'.child i e = t.child i e

theorem AgreeBut.refl (s far : NodeId) (t : Tree) : AgreeBut s far t t :=
  ⟨rfl, fun _ _ _ => rfl, fun _ _ _ => rfl, fun _ _ => rfl⟩

/-- Closing a deficit is a rotation that also adopts and paints the far child. -/
theorem AgreeBut.sameRecords {t t' : Tree} {p s far : NodeId} {d : Side}
    (h : AgreeBut s far t t') (hsp : s ≠ p) (hfp : far ≠ p) (hfs : far ≠ s)
    (hinner : t.child s d.opposite ≠ some p) (hfar : t.child s d.opposite ≠ some far) :
    (((t.rotate p s d .black).setParent far (some s)).setColor far .black).SameRecords
      (t'.closeDeficit p s far d) := by
  have hpp : t'.parent p = t.parent p := h.parent p hsp.symm hfp.symm
  have hpc : t'.color p = t.color p := h.color p hsp.symm hfp.symm
  have hchild := h.child s d.opposite
  -- Both sides end by writing the slot that held `p`, below the same parent.
  have hplace : (((((t'.swing p s d).setParent far (some s)).setColor far .black).adopt
      (t'.child s d.opposite) p).parent p) = t.parent p := by
    simp [swing, parent_adopt, parent_setParent, hchild, hinner, hfp.symm, hpp]
  rw [rotate_eq _ hinner]
  simp only [closeDeficit, liftAbove, hplace]
  refine .of_fields ?_ (fun i => ?_) (fun i => ?_) (fun i e => ?_)
  · rw [top_setColor, top_setParent]
    exact top_redirect_congr (by simp [swing, h.top]) ..
  · by_cases hif : i = far
    · simp [swing, parent_setParent, parent_adopt, hif, hfp, hfs, hchild, hfar]
    · by_cases his : i = s
      · simp [swing, parent_setParent, parent_turn, his, hsp, hfs.symm]
      · simp [swing, parent_setParent, parent_adopt, parent_turn, hif, his, hchild,
          h.parent i his hif]
  · by_cases hif : i = far
    · simp [swing, color_setColor, hif, hfp, hfs]
    · by_cases his : i = s
      · simp [swing, color_setColor, color_turn, his, hsp, hfs.symm, hfp.symm, hpc]
      · simp [swing, color_setColor, color_turn, hif, his, h.color i his hif]
  · rw [child_setColor, child_setParent]
    refine child_redirect_congr (fun i e => ?_) ..
    simp [swing, child_setChild, child_turn, h.child]

/-- Writing a parent link that is there already. -/
theorem sameRecords_setParent {t : Tree} {n : NodeId} {p : Option NodeId} (h : t.parent n = p) :
    t.SameRecords (t.setParent n p) := by
  refine .of_fields rfl (fun i => ?_) (fun i => color_setParent ..) fun i e => child_setParent ..
  rw [parent_setParent]
  split
  · next hi => rw [hi, h]
  · rfl

theorem SameRecords.setColor {t t' : Tree} (h : t.SameRecords t') (n : NodeId) (c : Color) :
    (t.setColor n c).SameRecords (t'.setColor n c) where
  top := h.top
  record i := by rw [record_setColor, record_setColor, h.record, h.record]

theorem SameRecords.trans {t t' t'' : Tree} (h : t.SameRecords t') (h' : t'.SameRecords t'') :
    t.SameRecords t'' :=
  ⟨h'.top.trans h.top, fun i => (h'.record i).trans (h.record i)⟩

/-- The sibling `s` is lifted to the place and colour of `p`, over two black nodes. -/
theorem Spells.reshapes_closeDeficit {t t' : Tree} {up : Path} {d : Side} {c c' : Color}
    {p s f : NodeId} {far near z : Shape}
    (h : t.Spells (up.fill (branch d c p (branch d c' s far near) z))) (hfar : far.top = some f)
    (hbut : AgreeBut s f t t') :
    t.Reshapes (t'.closeDeficit p s f d)
      (up.fill (branch d c s (far.paint .black) (branch d .black p near z))) := by
  obtain ⟨-, hhangs, hnodup, -⟩ := spells_fill_iff.mp h
  obtain ⟨-, hs, -⟩ := hangs_branch.mp hhangs
  obtain ⟨⟨-, -, -, hinner⟩, -⟩ := hangs_branch.mp hs
  simp only [nodup_toList_branch, disjoint_toList_branch, mem_toList_branch, not_or] at hnodup
  obtain ⟨⟨hps, hpfar, hpnear⟩, -, ⟨hsfar, -, -, -, hdisj⟩, -⟩ := hnodup
  have hf : f ∈ far.toList := mem_toList_of_top hfar
  have hrotate := h.reshapes_rotate .black
  have hframe : t.Reshapes (t.rotate p s d .black)
      (Path.fill (⟨d, c, s, branch d .black p near z⟩ :: up) far) := hrotate
  obtain ⟨-, hhangsFar, -⟩ := spells_fill_iff.mp hframe.spells
  have hpainted := hframe.trans (hframe.spells.reshapes_setColor hfar .black) (by
    simp only [Path.mem_toList_fill, toList_paint]
    exact fun _ => id)
  refine hpainted.congr (SameRecords.trans ?_ (hbut.sameRecords (Ne.symm hps)
    (ne_of_mem_of_not_mem hf hpfar) (ne_of_mem_of_not_mem hf hsfar) ?_ ?_))
  · exact (sameRecords_setParent (parent_of_hangs hhangsFar hfar)).setColor f .black
  · rw [hinner]
    exact top_ne_of_notMem hpnear
  · rw [hinner]
    exact top_ne_of_notMem fun hi => hdisj hf hi

/-- The red near child `k` of the sibling `s` is lifted above it, and then to the place
and colour of `p`. -/
theorem Spells.reshapes_liftNear_closeDeficit {t : Tree} {up : Path} {d : Side} {c c' c'' : Color}
    {p s k : NodeId} {far u v z : Shape}
    (h : t.Spells (up.fill (branch d c p (branch d c' s far (branch d c'' k v u)) z))) :
    t.Reshapes ((t.liftNear p s k d).closeDeficit p k s d)
      (up.fill (branch d c k (branch d .black s far v) (branch d .black p u z))) := by
  -- The sibling seen from the other side, below the frame of `p`.
  have hs : t.Spells (Path.fill (⟨d, c, p, z⟩ :: up)
      (branch d.opposite c' s (branch d.opposite c'' k u v) far)) := by
    rw [branch_opposite, branch_opposite]
    exact h
  have hlower := hs.reshapes_rotate .black
  have hrotate := (hs.rotate_eq_fill .black).2
  rw [branch_opposite, branch_opposite] at hlower
  have hlifted : t.Reshapes (t.rotate s k d.opposite .black)
      (up.fill (branch d c p (branch d c' k (branch d .black s far v) u) z)) := hlower
  have hbut : AgreeBut k s (t.rotate s k d.opposite .black) (t.liftNear p s k d) := by
    rw [hrotate]
    refine ⟨by simp [liftNear, swing, Path.slot, fill], fun i hik his => ?_, fun i hik his => ?_,
      fun i e => ?_⟩
    · simp [liftNear, swing, parent_adopt, parent_turn, hik, his]
    · simp [liftNear, swing, color_turn, hik, his]
    · simp [liftNear, swing, child_turn, child_fill, child_setChild, Path.slot, eq_comm]
  have hclose := hlifted.spells.reshapes_closeDeficit (top_branch ..) hbut
  rw [paint_branch] at hclose
  refine hlifted.trans hclose fun i => ?_
  simp only [Path.mem_toList_fill, mem_toList_branch]
  tauto

end RedBlack.Tree
