import RedBlack.Proofs.Tree.Rotation

/-!
# Linking and repairing, on records and on shapes

The repair of a red node on link records follows the repair on shapes, round by round.

* `Spells.reshapes_link` is the new leaf.
* `Spells.loop_redRound` is the loop: the invariant is that the records spell a shape
  with a red top in a place, and that the top of the whole is black unless the place is
  the top.
* `Spells.repairRed` gives the loop the rounds it needs: a tree has no more nodes than
  its store has records.
-/

namespace RedBlack

/-- The top of whatever goes into the place is black, if there is a node over it. -/
def Path.TopBlack (p : Path) : Prop := ∀ f, p.getLast? = some f → f.color = .black

theorem Path.TopBlack.tail {f : Frame} {up : Path} (h : Path.TopBlack (f :: up)) :
    Path.TopBlack up := by
  intro g hg
  cases up with
  | nil => cases hg
  | cons e up => exact h g (by rwa [List.getLast?_cons_cons])

theorem Path.Accepts.topBlack {p : Path} {red : Bool} {h : Nat} (hp : p.Accepts red h) :
    p.TopBlack := by
  induction p generalizing red h with
  | nil => simp [TopBlack]
  | cons f up ih =>
    intro g hg
    cases up with
    | nil =>
      obtain ⟨-, -, htop⟩ := hp
      obtain rfl : f = g := by simpa using hg
      cases hc : f.color with
      | black => rfl
      | red => simp [Path.Accepts, hc] at htop
    | cons e up => exact ih hp.2.2 g (by simpa using hg)

namespace Tree

open Shape

/-! ## The new leaf -/

/-- Linking a node into an empty place hangs a red leaf there. -/
theorem Spells.reshapes_link {t : Tree} {p : Path} {n : NodeId} (h : t.Spells (p.fill leaf))
    (hn : n ∉ p.nodes) : t.Reshapes (t.link n p.slot) (p.fill (node .red leaf n leaf)) := by
  obtain ⟨haround, -, -, hp, -⟩ := spells_fill_iff.mp h
  have hset : (t.setRecord n { parent := p.parent }).Around p leaf.top :=
    haround.congr rfl fun i hi => record_setRecord_of_ne (ne_of_mem_of_not_mem hi hn)
  have hrecord : (t.link n p.slot).record n = { parent := p.parent } := by
    rw [link, attach, Path.parent_slot, record_fill_slot hn, record_setRecord, if_pos rfl]
  constructor
  · refine spells_fill_iff.mpr ⟨?_, ⟨hrecord, trivial, trivial⟩, by simp [Shape.toList], hp, ?_⟩
    · rw [link, attach, Path.parent_slot]
      exact hset.fill hp _
    · simpa [Shape.toList] using hn
  · intro i hi
    simp only [Path.mem_toList_fill, Shape.toList, List.nil_append, List.mem_singleton, not_or]
      at hi
    rw [link, attach, Path.parent_slot, record_fill_slot hi.2, record_setRecord_of_ne hi.1]

/-! ## One round -/

/-- The slot that leads to a place is found by what it holds. -/
theorem Around.sideOf_eq {t : Tree} {f : Frame} {up : Path} {hole : Option NodeId}
    (h : t.Around (f :: up) hole) (hne : f.other.top ≠ hole) : t.sideOf f.id hole = f.side := by
  obtain ⟨⟨-, -, hhole, hother⟩, -⟩ := h
  rw [sideOf]
  cases hd : f.side with
  | left =>
    rw [hd] at hother
    have hright : t.child f.id .right = f.other.top := hother
    rw [hright, if_neg hne]
  | right =>
    rw [hd] at hhole
    rw [if_pos hhole]

theorem redChild?_eq {t : Tree} {n : NodeId} {d : Side} {s : Shape} {q : Option NodeId}
    (hchild : t.child n d = s.top) (hs : s.Hangs t.store q) :
    t.redChild? n d = if s.isRed then s.top else none := by
  rw [redChild?, hchild]
  cases hm : s.top with
  | none =>
    rw [top_eq_none_iff.mp hm]
    rfl
  | some m =>
    by_cases hr : s.isRed = true
    · simp [Option.filter, hr, (color_of_hangs hs hm).mpr hr]
    · have hc : t.color m ≠ .red := fun hc => hr ((color_of_hangs hs hm).mp hc)
      simp [Option.filter, hr, hc]

/-- The red of a node and its sibling moves up to their parent. -/
theorem Spells.reshapes_passRedUp {t : Tree} {up : Path} {g : Frame} {s : Shape} {p u : NodeId}
    (h : t.Spells (up.fill (g.close s))) (hp : s.top = some p) (hu : g.other.top = some u) :
    t.Reshapes (t.passRedUp p u g.id)
      (up.fill (Frame.close { g with color := .red, other := g.other.paint .black }
        (s.paint .black))) := by
  -- The sibling hangs in the other slot of the same node.
  have huncle : t.Spells (Path.fill (⟨g.side.opposite, g.color, g.id, s⟩ :: up) g.other) := by
    rw [Path.fill, Frame.close, branch_opposite]
    exact h
  have hone := huncle.reshapes_setColor hu .black
  rw [Path.fill, Frame.close, branch_opposite] at hone
  have hnode : (t.setColor u .black).Spells
      (Path.fill ({ g with other := g.other.paint .black } :: up) s) := hone.spells
  have htwo := hnode.reshapes_setColor hp .black
  have htop : ((t.setColor u .black).setColor p .black).Spells
      (up.fill (Frame.close { g with other := g.other.paint .black } (s.paint .black))) :=
    htwo.spells
  have hthree := htop.reshapes_setColor (top_close ..) .red
  rw [Frame.close, paint_branch] at hthree
  refine (hone.trans htwo fun i => ?_).trans hthree fun i => ?_
  · simp only [Path.mem_toList_fill, mem_toList_branch, Path.mem_nodes_cons, toList_paint]
    tauto
  · simp only [Path.mem_toList_fill, mem_toList_close, Path.mem_nodes_cons, toList_paint]
    tauto

/-- A round below a red node: the other child of the grandparent decides. -/
theorem Spells.redRound_of_red {t : Tree} {p g : Frame} {up : Path} {s : Shape} {n : NodeId}
    (h : t.Spells (Path.fill (p :: g :: up) s)) (hn : s.top = some n) (hp : p.color ≠ .black) :
    redRound (t, n) =
      match (if g.other.isRed then g.other.top else none) with
      | some u => .ok (.again (t.passRedUp p.id u g.id, g.id))
      | none =>
        if p.side = g.side then .ok (.done (t.liftOuter g.id p.id g.side))
        else .ok (.done ((t.liftInner p.id n g.side.opposite).liftOuter g.id n g.side)) := by
  obtain ⟨haround, hhangs, hnodup, hpnodup, hdisj⟩ := spells_fill_iff.mp h
  obtain ⟨⟨hpp, hpc, hps, hpo⟩, hpother, hg⟩ := haround
  have hparent : t.parent n = some p.id := parent_of_hangs hhangs hn
  have hgrand : t.parent p.id = some g.id := hpp
  have hred : t.color p.id ≠ .black := by rwa [hpc]
  have hpg : g.other.top ≠ some p.id := by
    rw [Path.nodes, List.nodup_cons, List.mem_append, Path.mem_nodes_cons] at hpnodup
    exact top_ne_of_notMem fun hi => hpnodup.1 (.inr (.inr (.inl hi)))
  have hside : t.sideOf g.id (some p.id) = g.side := hg.sideOf_eq hpg
  obtain ⟨⟨-, -, -, hgo⟩, hgother, -⟩ := hg
  have huncle := redChild?_eq hgo hgother
  have hinner : t.child p.id g.side.opposite = some n ↔ ¬p.side = g.side := by
    constructor
    · intro hc hsame
      rw [← hsame, hpo] at hc
      have hmem := mem_toList_of_top hn
      exact hdisj hmem (Path.mem_nodes_cons.mpr (.inr (.inl (mem_toList_of_top hc))))
    · intro hne
      rw [← Side.eq_opposite_of_ne hne, hps, hn]
  simp only [redRound, hparent, if_neg hred, hgrand, hside, huncle, hinner]
  cases (if g.other.isRed = true then g.other.top else none) with
  | some u => rfl
  | none =>
    by_cases hsame : p.side = g.side
    · simp [hsame]
    · simp [hsame]

/-- With a red node on the other side of the grandparent the round goes on there. -/
theorem Spells.redRound_again {t : Tree} {p g : Frame} {up : Path} {s : Shape} {n : NodeId}
    (h : t.Spells (Path.fill (p :: g :: up) s)) (hn : s.top = some n) (hp : p.color ≠ .black)
    (hg : g.other.isRed = true) :
    ∃ t', redRound (t, n) = .ok (.again (t', g.id)) ∧
      t.Reshapes t' (up.fill (Frame.close { g with color := .red, other := g.other.paint .black }
        ((p.close s).paint .black))) := by
  obtain ⟨u, x, y, hu⟩ := exists_branch_of_isRed .left hg
  have hutop : g.other.top = some u := by rw [hu, top_branch]
  have hround := h.redRound_of_red hn hp
  rw [if_pos hg, hutop] at hround
  have hup : t.Spells (Path.fill up (g.close (p.close s))) := h
  exact ⟨_, hround, hup.reshapes_passRedUp (top_close ..) hutop⟩

/-! ## The loop -/

/-- The loop on records comes to what the repair comes to on shapes. -/
theorem Spells.loop_redRound {t : Tree} {p : Path} {s : Shape} {n : NodeId} {rounds : Nat}
    (h : t.Spells (p.fill s)) (hn : s.top = some n) (hred : s.isRed = true) (hp : p.TopBlack)
    (hr : p.length ≤ rounds) :
    ∃ t', loop redRound (rounds + 1) (t, n) = .ok t' ∧ t.Reshapes t' (Shape.repairRed p s) := by
  fun_induction Shape.repairRed p s generalizing t n rounds with
  | case1 s =>
    obtain ⟨-, hhangs, -⟩ := spells_fill_iff.mp h
    have hparent : t.parent n = none := parent_of_hangs hhangs hn
    refine ⟨t.setColor n .black, loop_of_done ?_ _, h.reshapes_setColor hn .black⟩
    simp only [redRound, hparent]
  | case2 p s =>
    obtain ⟨⟨⟨-, hcolor, -⟩, -⟩, hhangs, -⟩ := spells_fill_iff.mp h
    have hparent : t.parent n = some p.id := parent_of_hangs hhangs hn
    have hblack : t.color p.id = .black := hcolor.trans (hp p rfl)
    refine ⟨t, loop_of_done ?_ _, h.reshapes_self⟩
    simp only [redRound, hparent, if_pos hblack]
  | case3 p g up s hblack =>
    obtain ⟨⟨⟨-, hcolor, -⟩, -⟩, hhangs, -⟩ := spells_fill_iff.mp h
    have hparent : t.parent n = some p.id := parent_of_hangs hhangs hn
    have hpb : t.color p.id = .black := hcolor.trans hblack
    refine ⟨t, loop_of_done ?_ _, h.reshapes_self⟩
    simp only [redRound, hparent, if_pos hpb]
  | case4 p g up s hcolor hg ih =>
    -- This round takes two frames off, and the others have one round less.
    simp only [List.length_cons] at hr
    obtain ⟨rounds, rfl⟩ : ∃ k, rounds = k + 1 := ⟨rounds - 1, by omega⟩
    obtain ⟨t', hround, hpass⟩ := h.redRound_again hn hcolor hg
    have hrest : up.length ≤ rounds := by omega
    obtain ⟨t'', hloop, ht''⟩ := ih hpass.spells (top_close ..) (by simp) hp.tail.tail hrest
    refine ⟨t'', by rw [loop_of_again hround, hloop], hpass.trans ht'' fun i hi => ?_⟩
    rwa [toList_repairRed, ← Path.toList_fill]
  | case5 p g up s hcolor hg =>
    have hround := h.redRound_of_red hn hcolor
    have hpr : p.color = .red := Color.eq_red_of_ne hcolor
    rw [if_neg hg] at hround
    by_cases hside : p.side = g.side
    · simp only [if_pos hside] at hround
      have hup : t.Spells (Path.fill up (g.close (p.close s))) := h
      rw [Frame.close, Frame.close, hside, hpr] at hup
      refine ⟨_, loop_of_done hround _, ?_⟩
      rw [straighten, if_pos hside, Frame.close, Frame.close, hside, hpr, lift_branch]
      exact hup.reshapes_liftOuter
    · simp only [if_neg hside] at hround
      have hopp : p.side = g.side.opposite := Side.eq_opposite_of_ne hside
      obtain ⟨m, x, y, rfl⟩ := exists_branch_of_isRed g.side hred
      obtain rfl : m = n := by simpa using hn
      have hup : t.Spells (Path.fill up (g.close (p.close (branch g.side .red m x y)))) := h
      rw [Frame.close, Frame.close, hopp, hpr, branch_opposite] at hup
      refine ⟨_, loop_of_done hround _, ?_⟩
      rw [straighten_inner hopp, Frame.close, hpr, lift_branch]
      exact hup.reshapes_liftInner_liftOuter

/-- The repair of a red node, on records. -/
theorem Spells.repairRed {t : Tree} {p : Path} {s : Shape} {n : NodeId}
    (h : t.Spells (p.fill s)) (hn : s.top = some n) (hred : s.isRed = true) (hp : p.TopBlack) :
    ∃ t', t.repairRed n = .ok t' ∧ t.Reshapes t' (Shape.repairRed p s) := by
  have hpos : 0 < s.toList.length := List.length_pos_of_mem (mem_toList_of_top hn)
  have hbound := h.length_path_le
  rw [bound] at hbound
  exact h.loop_redRound hn hred hp (by omega)

end Tree

end RedBlack
