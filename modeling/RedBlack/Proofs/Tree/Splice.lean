import RedBlack.Proofs.Shape.Removal
import RedBlack.Proofs.Tree.Replacement

/-!
# Taking a node out, on records and on shapes

`Tree.splice` has four cases, and `Shape.spliceAt` three: on shapes it makes no
difference whether the leftmost node on the right side is the right child.

* A node with one child or none is supplanted by what hung below it.
* With two children, `Tree.takeOver` is two things at once: the leftmost node is
  supplanted by its right child, and then it is put in the place of the node that goes.
  `Spells.reshapes_of_but` compares the two ways, since the first step writes the record
  of that node where `takeOver` leaves it alone.
-/

namespace RedBlack.Tree

open Shape

/-! ## One child or none -/

/-- A leaf is supplanted by nothing. -/
theorem Spells.reshapes_dropLeaf {t : Tree} {p : Path} {c : Color} {n : NodeId}
    (h : t.Spells (p.fill (node c leaf n leaf))) :
    t.dropLeaf n = ⟨t.supplant p.slot none .black, if c = .black then p.parent else none⟩ ∧
      t.Reshapes (t.supplant p.slot none .black) (p.fill leaf) := by
  obtain ⟨haround, hhangs, -, hp, hdisj⟩ := spells_fill_iff.mp h
  obtain ⟨⟨hparent, hcolor, -⟩, -⟩ := (hangs_branch (d := .left)).mp hhangs
  have hn : n ∉ p.nodes := hdisj (mem_toList_of_top rfl)
  refine ⟨?_, haround.reshapes_supplant (s := leaf) (q := none) hp trivial List.nodup_nil
    (List.disjoint_nil_left _) .black⟩
  rw [dropLeaf, hparent, hcolor, haround.redirect_eq hn]
  rfl

/-- An only child supplants its parent, and takes its colour. -/
theorem Spells.reshapes_promote {t : Tree} {p : Path} {d : Side} {c c' : Color} {n m : NodeId}
    {x y : Shape} (h : t.Spells (p.fill (branch d c n (node c' x m y) leaf))) :
    t.Reshapes (t.promote n m) (p.fill (node c x m y)) := by
  obtain ⟨haround, hhangs, hnodup, hp, hdisj⟩ := spells_fill_iff.mp h
  obtain ⟨⟨hparent, hcolor, -⟩, hchild, -⟩ := hangs_branch.mp hhangs
  obtain ⟨-, -, hnd, -⟩ := nodup_toList_branch.mp hnodup
  obtain ⟨hn, hchildp, -⟩ := disjoint_toList_branch.mp hdisj
  rw [top_branch] at haround
  rw [promote, hparent, hcolor, haround.redirect_eq hn, ← Path.parent_slot]
  exact haround.reshapes_supplant hp hchild hnd hchildp c

/-! ## The leftmost node -/

/-- The walk to the left ends at the leftmost node, and knows the node over it. -/
theorem loop_advance {t : Tree} {up place : Path} {x rest : Shape} {c : Color} {q k m : NodeId}
    {rounds : Nat} (hx : x.Hangs t.store (some q)) (hk : x.top = some k)
    (hup : up.parent = some q) (hm : leftmost up x = some (place, c, m, rest))
    (hrounds : place.length ≤ rounds + up.length) :
    ∃ pp, place.parent = some pp ∧
      loop (leftmostBelow.advance t) (rounds + 1) (q, k) = .ok (pp, m) := by
  fun_induction leftmost up x generalizing q k rounds with
  | case1 => cases hm
  | case2 up c' n r =>
    obtain ⟨rfl, rfl, rfl, rfl⟩ := by simpa using hm
    cases hk
    have hleft : t.child n .left = none := (record_eq_iff.mp hx.1).2.2.1
    refine ⟨q, hup, loop_of_done ?_ _⟩
    simp only [leftmostBelow.advance, hleft]
  | case3 up c' l n r hl ih =>
    cases hk
    have hlength : up.length < place.length := by
      obtain ⟨down, rfl, -⟩ := leftmost_eq_some hm
      simp only [List.length_append, List.length_cons]
      omega
    obtain ⟨rounds, rfl⟩ : ∃ j, rounds = j + 1 := ⟨rounds - 1, by omega⟩
    obtain ⟨k', hk'⟩ : ∃ k', l.top = some k' := by
      cases l with
      | leaf => exact absurd rfl hl
      | node => exact ⟨_, rfl⟩
    have hleft : t.child n .left = some k' := (record_eq_iff.mp hx.1).2.2.1.trans hk'
    have hrest : place.length ≤ rounds + List.length (⟨.left, c', n, r⟩ :: up : Path) := by
      rw [List.length_cons]
      omega
    obtain ⟨pp, hpp, hloop⟩ := ih hx.2.1 hk' rfl hm hrest
    have hstep : leftmostBelow.advance t (q, n) = .ok (.again (n, k')) := by
      simp only [leftmostBelow.advance, hleft]
    exact ⟨pp, hpp, by rw [loop_of_again hstep, hloop]⟩

/-! ## Two children -/

/-- What comes before `takeOver`: the slot of the leftmost node `s` holds the right child
of `s`, and what is left of the right side hangs below `s`.  The node `n` that goes is
untouched. -/
structure Freed (t u : Tree) (n s : NodeId) (slot : Slot) (rest right : Option NodeId) :
    Prop where
  top : u.top = t.top
  parent : ∀ i, u.parent i = if right = some i then some s else t.parent i
  color : ∀ i, u.color i = t.color i
  child : ∀ i e, i ≠ n →
    u.child i e =
      if i = s ∧ e = .right then right else if slot = .under i e then rest else t.child i e
  record : u.record n = t.record n

theorem Freed.record_of_ne {t u : Tree} {n s i : NodeId} {slot : Slot}
    {rest right : Option NodeId} (h : Freed t u n s slot rest right) (hin : i ≠ n) (his : i ≠ s)
    (hright : right ≠ some i) (hslot : slot.parent ≠ some i) : u.record i = t.record i := by
  refine record_eq_of_fields ?_ (h.color i) fun e => ?_
  · rw [h.parent, if_neg hright]
  · have hne : slot ≠ .under i e := fun hs => hslot (by rw [hs]; rfl)
    rw [h.child i e hin, if_neg fun hs => his hs.1, if_neg hne]

/-- Freeing the leftmost node stays away from what is around the place of `n`. -/
theorem Freed.around {t u : Tree} {p : Path} {n s : NodeId} {slot : Slot}
    {rest right hole : Option NodeId} (hu : Freed t u n s slot rest right) (h : t.Around p hole)
    (hn : n ∉ p.nodes) (hs : s ∉ p.nodes) (hright : ∀ i, right = some i → i ∉ p.nodes)
    (hslot : ∀ i, slot.parent = some i → i = n ∨ i ∉ p.nodes) : u.Around p hole := by
  refine h.congr hu.top fun i hi => ?_
  have hin : i ≠ n := ne_of_mem_of_not_mem hi hn
  have his : i ≠ s := ne_of_mem_of_not_mem hi hs
  refine hu.record_of_ne hin his (fun htop => hright i htop hi) fun hparent => ?_
  rcases hslot i hparent with h | h
  · exact hin h
  · exact h hi

/-- `takeOver` with the slot of the place found. -/
theorem Around.takeOver_eq {u : Tree} {p : Path} {c : Color} {n l s pp : NodeId}
    (h : u.Around p (some n)) (hparent : u.parent n = p.parent) (hcolor : u.color n = c)
    (hn : n ∉ p.nodes) (hl : l ∉ p.nodes) (hs : s ∉ p.nodes) (hnl : n ≠ l) (m : Option NodeId) :
    u.takeOver n l s pp m =
      ⟨((((u.setChild s .left (some l)).setParent l (some s)).fill p.slot (some s)).settle m
          (some pp) .black).settle (some s) p.parent c,
        if m = none ∧ u.color s = .black then some pp else none⟩ := by
  have haround : ((u.setChild s .left (some l)).setParent l (some s)).Around p (some n) := by
    rw [around_setParent hl, around_setChild hs]
    exact h
  have hplace : ((u.setChild s .left (some l)).setParent l (some s)).parent n = p.parent := by
    rw [parent_setParent, if_neg hnl, parent_setChild, hparent]
  simp only [takeOver, hplace, haround.redirect_eq hn, color_setParent, color_setChild, hcolor]
  cases m with
  | none => simp [settle]
  | some m => rfl

section Freed

variable {t u : Tree} {n s l pp : NodeId} {slot place : Slot} {rest right : Option NodeId}
  {q : Option NodeId} {c : Color}

/-- What `takeOver` writes, node by node: as if the leftmost node had been supplanted and
then put in the place of `n`. -/
theorem Freed.record_takeOver (hu : Freed t u n s slot rest right)
    (hplace : ∀ e, place ≠ .under s e) (hsl : s ≠ l) (hrs : rest ≠ some s) (hrl : rest ≠ some l)
    (hpp : ∀ m, rest = some m → (if right = some m then some s else slot.parent) = some pp)
    {i : NodeId} (hi : i ≠ n) :
    (((((u.setChild s .left (some l)).setParent l (some s)).fill place (some s)).settle rest
        (some pp) .black).settle (some s) q c).record i =
      (((((t.supplant slot rest .black).fill place (some s)).adopt (some l) s).adopt right
        s).setRecord s ⟨q, c, some l, right⟩).record i := by
  by_cases his : i = s
  · subst his
    rw [record_setRecord, if_pos rfl]
    refine record_eq_iff.mpr ⟨?_, ?_, ?_, ?_⟩
    · simp [parent_settle]
    · simp [color_settle]
    · simp [child_fill, child_setChild, hplace]
    · simp [child_fill, child_setChild, hplace, hu.child _ _ hi]
  · rw [record_settle_of_ne (by simpa using Ne.symm his), record_setRecord_of_ne his]
    refine record_eq_of_fields ?_ ?_ fun e => ?_
    · by_cases hri : rest = some i
      · have hil : i ≠ l := fun hil => hrl (hil ▸ hri)
        simp [supplant, parent_settle, parent_adopt, hri, Ne.symm hil, ← hpp i hri]
      · simp only [supplant, parent_settle, parent_adopt, parent_setParent, parent_fill,
          parent_setChild, hu.parent, if_neg hri, Option.some.injEq, eq_comm (a := i)]
        split <;> split <;> rfl
    · simp [supplant, color_settle, hu.color]
    · simp [supplant, child_fill, child_setChild, hu.child i e hi, his]

theorem Freed.top_takeOver (hu : Freed t u n s slot rest right) (hslot : slot ≠ .top) :
    (((((u.setChild s .left (some l)).setParent l (some s)).fill place (some s)).settle rest
        (some pp) .black).settle (some s) q c).top =
      (((((t.supplant slot rest .black).fill place (some s)).adopt (some l) s).adopt right
        s).setRecord s ⟨q, c, some l, right⟩).top := by
  simp [supplant, top_fill, hslot, hu.top]

theorem Freed.record_takeOver_self (hu : Freed t u n s slot rest right) (hsn : s ≠ n)
    (hnl : n ≠ l) (hrn : rest ≠ some n) (hplace : place.parent ≠ some n) :
    (((((u.setChild s .left (some l)).setParent l (some s)).fill place (some s)).settle rest
        (some pp) .black).settle (some s) q c).record n = t.record n := by
  have hs : some s ≠ some n := by simpa using hsn
  rw [record_settle_of_ne hs, record_settle_of_ne hrn, record_fill_of_ne hplace,
    record_setParent_of_ne hnl, record_setChild_of_ne hsn.symm, hu.record]

end Freed

/-- Two children, in two steps: the leftmost node is supplanted by its right child and
then put in the place of the node that goes. -/
theorem Spells.reshapes_supplant_swapIn {t : Tree} {p down : Path} {c c' : Color}
    {l rest : Shape} {n s : NodeId}
    (h : t.Spells (p.fill (node c l n (down.fill (node c' leaf s rest))))) :
    let shape := p.fill (node c l s (down.fill (rest.paint .black)))
    let freed := t.supplant (Path.slot (down ++ ⟨.right, c, n, l⟩ :: p)) rest.top .black
    t.color s = c' ∧ freed.Spells (p.fill (node c l n (down.fill (rest.paint .black)))) ∧
      (freed.swapIn n s).Spells shape ∧
      ∀ i, i ≠ n → i ∉ shape.toList → (freed.swapIn n s).record i = t.record i := by
  have hplace : t.Spells (Path.fill (down ++ ⟨.right, c, n, l⟩ :: p) (node c' leaf s rest)) := by
    rw [Path.fill_append]
    exact h
  obtain ⟨haround, hhangs, hnodup, hq, hdisj⟩ := spells_fill_iff.mp hplace
  obtain ⟨⟨-, hcolor, -⟩, -, hrest⟩ := (hangs_branch (d := .left)).mp hhangs
  obtain ⟨-, hsrest, -, hrestnd, -⟩ := (nodup_toList_branch (d := .left)).mp hnodup
  obtain ⟨hsq, -, hrestq⟩ := (disjoint_toList_branch (d := .left)).mp hdisj
  have hfreed := haround.reshapes_supplant hq hrest hrestnd hrestq .black
  have hs : s ∉ (Path.fill (down ++ ⟨.right, c, n, l⟩ :: p) (rest.paint .black)).toList := by
    rw [Path.mem_toList_fill, toList_paint, not_or]
    exact ⟨hsrest, hsq⟩
  rw [Path.fill_append] at hfreed hs
  have hmoved := Spells.reshapes_swapIn hfreed.spells hs
  refine ⟨hcolor, hfreed.spells, hmoved.spells, fun i hin hi => (hmoved.frame i hi).trans ?_⟩
  refine hfreed.frame i fun hmem => hi ?_
  simp only [Path.mem_toList_fill, Path.mem_nodes_cons, Shape.toList, List.mem_append,
    List.mem_cons] at hmem ⊢
  tauto

/-- A tree that has the records of another one except at a node outside the shape, whose
record is the old one. -/
theorem Spells.reshapes_of_but {t t' t'' : Tree} {s : Shape} {n : NodeId} (h : t'.Spells s)
    (hframe : ∀ i, i ≠ n → i ∉ s.toList → t'.record i = t.record i) (hn : n ∉ s.toList)
    (htop : t''.top = t'.top) (hrecord : ∀ i, i ≠ n → t''.record i = t'.record i)
    (hold : t''.record n = t.record n) : t.Reshapes t'' s where
  spells :=
    ⟨htop.trans h.top,
      h.hangs.congr fun i hi => hrecord i (ne_of_mem_of_not_mem hi hn), h.nodup⟩
  frame i hi := by
    by_cases hin : i = n
    · rw [hin, hold]
    · rw [hrecord i hin, hframe i hin hi]

/-- What hung below the leftmost node comes below the one that `takeOver` is told: the
leftmost node itself when that was the right child, and otherwise the node over it. -/
theorem parent_slot_rest {p down : Path} {c : Color} {l rest : Shape} {n s m : NodeId}
    (hdisj : rest.toList.Disjoint down.nodes) (hm : rest.top = some m) :
    (if (down.fill rest).top = some m then some s
      else (Path.slot (down ++ ⟨.right, c, n, l⟩ :: p)).parent) =
      Path.parent (down ++ ⟨.right, c, s, l⟩ :: p) := by
  cases down with
  | nil => exact if_pos hm
  | cons f down =>
    obtain ⟨i, hi, htop⟩ := Path.exists_top_fill f down
    have hmi : some i ≠ some m := by
      rintro ⟨⟩
      exact hdisj (mem_toList_of_top hm) hi
    rw [htop, if_neg hmi]
    rfl

/-- `takeOver` leaves what the two steps leave, but for the record of the node that
went. -/
theorem Spells.reshapes_takeOver {t u : Tree} {p down : Path} {c c' : Color} {l rest : Shape}
    {n s pp k : NodeId} (h : t.Spells (p.fill (node c l n (down.fill (node c' leaf s rest)))))
    (hu : Freed t u n s (Path.slot (down ++ ⟨.right, c, n, l⟩ :: p)) rest.top
      (down.fill (rest.paint .black)).top)
    (hl : l.top = some k) (hpp : Path.parent (down ++ ⟨.right, c, s, l⟩ :: p) = some pp) :
    ∃ t', u.takeOver n k s pp rest.top =
        ⟨t', if rest = leaf ∧ c' = .black then some pp else none⟩ ∧
      t.Reshapes t' (p.fill (node c l s (down.fill (rest.paint .black)))) := by
  obtain ⟨hsc, hfreed, hspells, hframe⟩ := h.reshapes_supplant_swapIn
  rw [hfreed.swapIn_eq] at hspells hframe
  obtain ⟨haround, hhangs, hnodup, hp, hdisj⟩ := spells_fill_iff.mp h
  obtain ⟨⟨hnp, hnc, -⟩, -⟩ := (hangs_branch (d := .left)).mp hhangs
  obtain ⟨hnl, hnR, hlnd, hRnd, hlR⟩ := (nodup_toList_branch (d := .left)).mp hnodup
  obtain ⟨hn, hlp, hRp⟩ := (disjoint_toList_branch (d := .left)).mp hdisj
  have hk : k ∈ l.toList := mem_toList_of_top hl
  obtain ⟨hsnd, -, hsdown⟩ := Path.nodup_toList_fill.mp hRnd
  obtain ⟨-, hsrest, -⟩ := (nodup_toList_branch (d := .left)).mp hsnd
  -- The nodes of the right side, as it is and as it will be.
  have hR : ∀ i, i = s ∨ i ∈ rest.toList ∨ i ∈ down.nodes →
      i ∈ (down.fill (node c' leaf s rest)).toList := by
    intro i hi
    simpa [Shape.toList, or_assoc] using hi
  have hright : ∀ i, (down.fill (rest.paint .black)).top = some i → i ∉ p.nodes := by
    intro i hi
    have hmem := mem_toList_of_top hi
    rw [Path.mem_toList_fill, toList_paint] at hmem
    exact hRp (hR i (.inr hmem))
  have hslot : ∀ i, (Path.slot (down ++ ⟨.right, c, n, l⟩ :: p)).parent = some i →
      i = n ∨ i ∉ p.nodes := by
    intro i hi
    rw [Path.parent_slot] at hi
    cases down with
    | nil => exact .inl (by simpa [Path.parent] using hi.symm)
    | cons f down => exact .inr (hRp (hR i (.inr (.inr (Path.mem_nodes_of_parent hi)))))
  have hs := hR s (.inl rfl)
  have hkn : n ≠ k := fun hnk => hnl (hnk ▸ hk)
  have hsn : s ≠ n := fun hsn => hnR (hsn ▸ hs)
  have hsk : s ≠ k := fun hsk => hlR hk (hsk ▸ hs)
  have huaround : u.Around p (some n) := hu.around haround hn (hRp hs) hright hslot
  have huparent : u.parent n = p.parent := by rw [parent, hu.record]; exact hnp
  have hucolor : u.color n = c := by rw [Tree.color, hu.record]; exact hnc
  have hnshape : n ∉ (p.fill (node c l s (down.fill (rest.paint .black)))).toList := by
    simp only [Path.mem_toList_fill, Shape.toList, toList_paint, List.mem_append, List.mem_cons]
    have hnR' : ¬(n ∈ rest.toList ∨ n ∈ down.nodes) := fun hi => hnR (hR n (.inr hi))
    tauto
  have hqtop : Path.slot (down ++ ⟨.right, c, n, l⟩ :: p) ≠ .top := by
    cases down <;> simp [Path.slot]
  have hpn : p.slot.parent ≠ some n := by
    rw [Path.parent_slot]
    exact Path.parent_ne_of_notMem hn
  have hrest : ∀ i, rest.top = some i → i ∈ (down.fill (node c' leaf s rest)).toList :=
    fun i hi => hR i (.inr (.inl (mem_toList_of_top hi)))
  have hrs : rest.top ≠ some s := top_ne_of_notMem hsrest
  have hrestdown : (rest.paint .black).toList.Disjoint down.nodes := by
    rw [toList_paint]
    exact ((disjoint_toList_branch (d := .left)).mp hsdown).2.2
  have hpp' : ∀ m, rest.top = some m →
      (if (down.fill (rest.paint .black)).top = some m then some s
        else (Path.slot (down ++ ⟨.right, c, n, l⟩ :: p)).parent) = some pp :=
    fun m hm => (parent_slot_rest hrestdown ((top_paint ..).trans hm)).trans hpp
  rw [hl] at hspells hframe
  rw [huaround.takeOver_eq huparent hucolor hn (hlp hk) (hRp hs) hkn, hu.color, hsc]
  simp only [top_eq_none_iff]
  refine ⟨_, rfl, hspells.reshapes_of_but hframe hnshape (hu.top_takeOver hqtop)
    (fun i hi => ?_) (hu.record_takeOver_self hsn hkn (fun h => hnR (hrest n h)) hpn)⟩
  exact hu.record_takeOver (Path.slot_ne_of_notMem (hRp hs)) hsk hrs
    (fun h => hlR hk (hrest k h)) hpp' hi

/-! ## All cases -/

/-- The leftmost node is the right child: there is nothing to free. -/
theorem Spells.freed_self {t : Tree} {p : Path} {c c' : Color} {l rest : Shape} {n s : NodeId}
    (h : t.Spells (p.fill (node c l n (node c' leaf s rest)))) :
    Freed t t n s (Path.slot (⟨.right, c, n, l⟩ :: p)) rest.top (rest.paint .black).top := by
  have hplace : t.Spells (Path.fill (⟨.right, c, n, l⟩ :: p) (node c' leaf s rest)) := h
  obtain ⟨-, hhangs, -⟩ := spells_fill_iff.mp hplace
  obtain ⟨⟨-, -, -, hright⟩, -, hrest⟩ := (hangs_branch (d := .left)).mp hhangs
  refine ⟨rfl, fun i => ?_, fun i => rfl, fun i e hi => ?_, rfl⟩
  · split
    · next htop => exact parent_of_hangs hrest (by simpa using htop)
    · rfl
  · have hslot : Path.slot (⟨.right, c, n, l⟩ :: p) ≠ .under i e := by
      rintro ⟨⟩
      exact hi rfl
    rw [if_neg hslot, top_paint]
    split
    · next his =>
      rw [his.1, his.2]
      exact hright
    · rfl

/-- The leftmost node is further down: `freeLeftmost` frees it. -/
theorem Spells.freed_freeLeftmost {t : Tree} {p up : Path} {f : Frame} {c c' : Color}
    {l rest : Shape} {n s r : NodeId}
    (h : t.Spells (p.fill (node c l n (Path.fill (f :: up) (node c' leaf s rest)))))
    (hf : f.side = .left) (hr : (Path.fill (f :: up) (rest.paint .black)).top = some r) :
    Freed t (t.freeLeftmost r s f.id) n s (Path.slot (f :: up ++ ⟨.right, c, n, l⟩ :: p)) rest.top
      (Path.fill (f :: up) (rest.paint .black)).top := by
  have hplace : t.Spells (Path.fill (f :: up ++ ⟨.right, c, n, l⟩ :: p) (node c' leaf s rest)) := by
    rw [Path.fill_append]
    exact h
  obtain ⟨-, hhangs, -⟩ := spells_fill_iff.mp hplace
  obtain ⟨⟨-, -, -, hright⟩, -⟩ := (hangs_branch (d := .left)).mp hhangs
  have hright : t.child s .right = rest.top := hright
  obtain ⟨hnd, -⟩ := Path.nodup_toList_fill.mp h.nodup
  obtain ⟨-, hnR, -⟩ := (nodup_toList_branch (d := .left)).mp hnd
  rw [Path.mem_toList_fill, not_or] at hnR
  have hns : n ≠ s := fun hns => hnR.1 (by simp [Shape.toList, hns])
  have hnf : n ≠ f.id := fun hnf => hnR.2 (by simp [hnf])
  have hnr : n ≠ r := by
    obtain ⟨i, hi, htop⟩ := Path.exists_top_fill f up
    obtain rfl : i = r := by simpa [htop] using hr
    exact (ne_of_mem_of_not_mem hi hnR.2).symm
  rw [hr]
  refine ⟨by simp [freeLeftmost], fun i => ?_, fun i => ?_, fun i e hi => ?_, ?_⟩
  · simp [freeLeftmost, parent_setParent, eq_comm]
  · simp [freeLeftmost]
  · have hslot : Path.slot (f :: up ++ ⟨.right, c, n, l⟩ :: p) = .under i e ↔
        i = f.id ∧ e = .left := by
      simp [Path.slot, hf, eq_comm]
    simp only [freeLeftmost, child_setParent, child_setChild, hright, hslot]
  · rw [freeLeftmost, record_setParent_of_ne hnr, record_setChild_of_ne hns,
      record_setChild_of_ne hnf]

/-- With two children the leftmost node on the right side is found, freed and put in the
place of the node that goes. -/
theorem Spells.splice_of_children {t : Tree} {p down : Path} {c c' cl cr : Color}
    {x y z w rest : Shape} {n k j s : NodeId}
    (h : t.Spells (p.fill (node c (node cl x k y) n (node cr z j w))))
    (hm : leftmost [] (node cr z j w) = some (down, c', s, rest)) :
    ∃ t', t.splice n =
        .ok ⟨t', if rest = leaf ∧ c' = .black then
          Path.parent (down ++ ⟨.right, c, s, node cl x k y⟩ :: p) else none⟩ ∧
      t.Reshapes t' (p.fill (node c (node cl x k y) s (down.fill (rest.paint .black)))) := by
  obtain ⟨-, hhangs, -⟩ := spells_fill_iff.mp h
  obtain ⟨⟨-, -, hleft, hright⟩, -, hr⟩ := (hangs_branch (d := .left)).mp hhangs
  have hleft : t.child n .left = some k := hleft
  have hright : t.child n .right = some j := hright
  have hz : t.child j .left = z.top := (record_eq_iff.mp hr.1).2.2.1
  obtain ⟨down, rfl, hside, hfill⟩ := leftmost_eq_some hm
  rw [List.append_nil] at hm ⊢
  rw [← hfill] at h
  have hplace : t.Spells
      (Path.fill (down ++ ⟨.right, c, n, node cl x k y⟩ :: p) (node c' leaf s rest)) := by
    rw [Path.fill_append]
    exact h
  have hs : t.child s .right = rest.top := by
    obtain ⟨-, hs, -⟩ := spells_fill_iff.mp hplace
    exact ((hangs_branch (d := .left)).mp hs).1.2.2.2
  simp only [Tree.splice, hleft, hright, hz]
  cases z with
  | leaf =>
    obtain ⟨rfl, rfl, rfl, rfl⟩ := by simpa [leftmost] using hm
    have hself : Freed t t n j (Path.slot ([] ++ ⟨.right, c, n, node cl x k y⟩ :: p)) w.top
        (Path.fill [] (w.paint .black)).top := Spells.freed_self h
    obtain ⟨t', htake, ht'⟩ := h.reshapes_takeOver hself rfl rfl
    refine ⟨t', ?_, ht'⟩
    rw [hs, List.nil_append, Path.parent]
    exact congrArg Except.ok htake
  | node cz z' i z'' =>
    rw [leftmost] at hm
    · have hbound : down.length ≤ t.store.size + [(⟨.left, cr, j, w⟩ : Frame)].length := by
        have hlength := hplace.length_path_le
        rw [List.length_append, List.length_cons, bound] at hlength
        rw [List.length_singleton]
        omega
      obtain ⟨pp, hpp, hloop⟩ := loop_advance hr.2.1 rfl rfl hm hbound
      cases down with
      | nil => cases hpp
      | cons f up =>
        obtain rfl : f.id = pp := by simpa [Path.parent] using hpp
        have htop : (Path.fill (f :: up) (rest.paint .black)).top = some j := by
          obtain ⟨i, -, htop⟩ := Path.exists_top_fill f up
          rw [htop, ← htop (node c' leaf s rest), hfill]
          rfl
        have hfreed := h.freed_freeLeftmost (hside f List.mem_cons_self) htop
        obtain ⟨t', htake, ht'⟩ := h.reshapes_takeOver hfreed rfl rfl
        have hbelow : t.leftmostBelow j i = .ok (f.id, s) := hloop
        refine ⟨t', ?_, ht'⟩
        simp only [Shape.top, hbelow]
        show Except.ok ((t.freeLeftmost j s f.id).takeOver n k s f.id (t.child s .right)) = _
        rw [hs, htake]
        rfl
    · simp

/-- Taking the top of a shape out of its place, on records. -/
theorem Spells.splice {t : Tree} {p : Path} {c : Color} {l r : Shape} {n : NodeId}
    (h : t.Spells (p.fill (node c l n r))) :
    ∃ t', t.splice n =
        .ok ⟨t', if (spliceAt p (node c l n r)).short then
          (spliceAt p (node c l n r)).place.parent else none⟩ ∧
      t.Reshapes t' (spliceAt p (node c l n r)).shape := by
  obtain ⟨-, hhangs, -⟩ := spells_fill_iff.mp h
  obtain ⟨⟨-, -, hleft, hright⟩, -⟩ := (hangs_branch (d := .left)).mp hhangs
  have hright : t.child n .right = r.top := hright
  cases l with
  | leaf =>
    cases r with
    | leaf =>
      obtain ⟨hdrop, hreshapes⟩ := h.reshapes_dropLeaf
      refine ⟨_, ?_, hreshapes⟩
      simp only [Tree.splice, hleft, hright, Shape.top, hdrop, spliceAt, decide_eq_true_eq]
    | node c' x m y =>
      refine ⟨_, ?_, Spells.reshapes_promote (d := .right) h⟩
      simp [Tree.splice, hleft, hright, Shape.top, spliceAt]
  | node cl x k y =>
    cases r with
    | leaf =>
      refine ⟨_, ?_, Spells.reshapes_promote (d := .left) h⟩
      simp [Tree.splice, hleft, hright, Shape.top, spliceAt]
    | node cr z j w =>
      obtain ⟨down, c', s, rest, hm⟩ := exists_leftmost (s := node cr z j w) (by simp) []
      obtain ⟨t', hsplice, ht'⟩ := h.splice_of_children hm
      rw [spliceAt_of_leftmost n (by simp) hm]
      refine ⟨t', by simpa using hsplice, ?_⟩
      rw [Opening.shape, Path.fill_append]
      exact ht'

end RedBlack.Tree
