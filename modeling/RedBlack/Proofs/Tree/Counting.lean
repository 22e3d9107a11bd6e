import Mathlib.Algebra.Group.Nat.Defs
import Mathlib.Data.Finset.Card
import RedBlack.Proofs.Tree.Sharing

/-!
# How far the check counts

The check counts a node each time it enters it.  Nodes that it enters once can always be
counted, since all of them have records.  A node in both slots of its parent is entered
twice, with all that hangs below it, and along a chain of such nodes the count doubles at
every step.

* `Charges` says that a bound on the nodes that are entered pays for one step of the
  recursion, and `Checks.within` that it pays for all of it then.
* `charges_fullBelow` is the bound that the depth alone gives.  `charges_below` is the number
  of records below a node, where no node holds one child in both of its slots.
* `validate_ends` is the result: the check comes to an answer, unless the count grows too
  large for a word, and that takes a node that is held twice.
* `validate_doubledChain` counts the nodes of the chain, which are too many from 65 on.
-/

namespace RedBlack.Tree

variable {t : Tree} {n m i : NodeId} {d : Side} {up way : List NodeId} {seen k : Nat}

/-! ## The size fits into a word -/

/-- The count at the end of a check that finds nothing wrong is one that fits. -/
def Counted (t : Tree) (st : Stats) : Site → Prop
  | .whole => st.size < t.countLimit
  | .node seen _ => seen + st.size < t.countLimit
  | .slot seen _ _ => seen < t.countLimit → seen + st.size < t.countLimit

theorem Checks.counted {site : Site} {a : Except Violation Stats} {st : Stats}
    (h : t.Checks site a) (ha : a = .ok st) : t.Counted st site := by
  induction h generalizing st with
  | empty =>
    cases ha
    exact Nat.lt_of_le_of_lt (Nat.zero_le _) t.size_lt_countLimit
  | top _ _ _ _ ih =>
    have hcount : 0 + st.size < t.countLimit := ih ha
    rwa [Nat.zero_add] at hcount
  | @even seen n l r hseen _ _ _ ihl ihr =>
    cases ha
    have hcount : seen + 1 + l.size + r.size < t.countLimit := ihr rfl (ihl rfl hseen)
    show seen + (l.size + 1 + r.size) < t.countLimit
    omega
  | absent =>
    cases ha
    exact id
  | enter _ _ ih => exact fun _ => ih ha
  | _ => cases ha

/-! ## A bound for each step -/

/-- What an answer says about the nodes that are entered for it, after `seen` others: there
are at most `k` of them, and where the count grew too large, `k` more are too many. -/
def EntersAtMost (t : Tree) (seen k : Nat) : Except Violation Stats → Prop
  | .ok st => st.size ≤ k
  | .error v => ∀ m, v = .tooDeep m → t.countLimit ≤ seen + k

theorem EntersAtMost.mono {j : Nat} {a : Except Violation Stats} (h : t.EntersAtMost seen j a)
    (hjk : j ≤ k) : t.EntersAtMost seen k a := by
  cases a with
  | ok st => exact Nat.le_trans h hjk
  | error v => exact fun m hm => Nat.le_trans (h m hm) (Nat.add_le_add_left hjk seen)

/-- A bound on the nodes that are entered from the end of a way down on.  It is enough for
the node that stands there and for what is entered through its slots. -/
def Charges (t : Tree) (cost : List NodeId → Nat) : Prop :=
  ∀ n up, t.Descent (n :: up) → ∃ k : Side → Nat,
    (∀ d m, t.Enters n d m → cost (m :: n :: up) ≤ k d) ∧
      k .left + 1 + k .right ≤ cost (n :: up)

/-- The bound holds for what is checked at the end of any way down. -/
def Within (t : Tree) (cost : List NodeId → Nat) (a : Except Violation Stats) : Site → Prop
  | .whole => ∀ k, (∀ n, cost [n] ≤ k) → t.EntersAtMost 0 k a
  | .node seen n => ∀ up, t.Descent (n :: up) → t.EntersAtMost seen (cost (n :: up)) a
  | .slot seen n d => ∀ up k, t.Descent (n :: up) →
      (∀ m, t.Enters n d m → cost (m :: n :: up) ≤ k) → t.EntersAtMost seen k a

/-- What pays for each step pays for the whole check. -/
theorem Checks.within {cost : List NodeId → Nat} (hcost : t.Charges cost) {site : Site}
    {a : Except Violation Stats} (h : t.Checks site a) : t.Within cost a site := by
  induction h with
  | empty => exact fun k _ => Nat.zero_le k
  | redTop => exact fun _ _ m hm => by cases hm
  | topHasParent => exact fun _ _ m hm => by cases hm
  | top h hblack hparent _ ih => exact fun k hk => (ih [] (.top h hblack hparent)).mono (hk _)
  | full hfull =>
    intro up hdown m _
    obtain ⟨k, -, hk⟩ := hcost _ up hdown
    omega
  | leftBroken _ _ ihl =>
    intro up hdown m hm
    obtain ⟨k, hslot, hk⟩ := hcost _ up hdown
    have hleft := ihl up (k .left) hdown (hslot .left) m hm
    omega
  | @rightBroken seen n v l _ _ _ ihl ihr =>
    intro up hdown m hm
    obtain ⟨k, hslot, hk⟩ := hcost n up hdown
    have hleft : l.size ≤ k .left := ihl up (k .left) hdown (hslot .left)
    have hright := ihr up (k .right) hdown (hslot .right) m hm
    omega
  | uneven => exact fun _ _ m hm => by cases hm
  | @even seen n l r _ _ _ _ ihl ihr =>
    intro up hdown
    obtain ⟨k, hslot, hk⟩ := hcost n up hdown
    have hleft : l.size ≤ k .left := ihl up (k .left) hdown (hslot .left)
    have hright : r.size ≤ k .right := ihr up (k .right) hdown (hslot .right)
    show l.size + 1 + r.size ≤ cost (n :: up)
    omega
  | absent => exact fun _ k _ _ => Nat.zero_le k
  | brokenParent => exact fun _ _ _ _ m hm => by cases hm
  | redRed => exact fun _ _ _ _ m hm => by cases hm
  | enter henter _ ih =>
    intro up k hdown hk
    exact (ih _ (.enter hdown henter)).mono (hk _ henter)

/-- Where the count of a check grows too large, every such bound is as large. -/
theorem Charges.countLimit_le {cost : List NodeId → Nat} (hcost : t.Charges cost)
    (hk : ∀ n, cost [n] ≤ k) (h : t.validate = .error (.tooDeep m)) : t.countLimit ≤ k := by
  have hwithin : t.EntersAtMost 0 k t.validate := t.checks_validate.within hcost k hk
  rw [h] at hwithin
  have hle := hwithin m rfl
  omega

/-! ## Two bounds -/

/-- The nodes of a full tree with as many levels as there are records that are not above the
end of a way down. -/
def fullBelow (t : Tree) (way : List NodeId) : Nat := 2 ^ (t.store.size + 1 - way.length) - 1

/-- With each level the number of nodes at most doubles. -/
theorem charges_fullBelow (t : Tree) : t.Charges t.fullBelow := by
  intro n up hdown
  have hlength := hdown.length_le
  obtain ⟨j, hj⟩ : ∃ j, t.store.size + 1 - (n :: up).length = j + 1 :=
    ⟨t.store.size - (n :: up).length, by omega⟩
  refine ⟨fun _ => 2 ^ j - 1, fun d m _ => ?_, ?_⟩
  · have hlevels : t.store.size + 1 - (m :: n :: up).length = j := by
      rw [List.length_cons]
      omega
    rw [fullBelow, hlevels]
  · have hpos : 0 < 2 ^ j := Nat.two_pow_pos j
    rw [fullBelow, hj, Nat.pow_succ]
    show 2 ^ j - 1 + 1 + (2 ^ j - 1) ≤ 2 ^ j * 2 - 1
    omega

/-- The chain of ancestors of `i` ends with `way`. -/
def Under (t : Tree) (way : List NodeId) (i : NodeId) : Prop :=
  ∃ up, t.Lineage (i :: up) ∧ way <:+ i :: up

open Classical in
/-- The nodes with a record at or below the end of a way down. -/
noncomputable def below (t : Tree) (way : List NodeId) : Finset NodeId :=
  {i ∈ Finset.range t.store.size | t.Under way i}

theorem mem_below : i ∈ t.below way ↔ i < t.store.size ∧ t.Under way i := by
  simp only [below, Finset.mem_filter, Finset.mem_range]

theorem below_cons_subset : t.below (n :: way) ⊆ t.below way := by
  intro i hi
  obtain ⟨hsize, up, hup, hsuffix⟩ := mem_below.mp hi
  exact mem_below.mpr ⟨hsize, up, hup, (List.suffix_cons n way).trans hsuffix⟩

/-- A node lies below at most one of two different nodes on one level. -/
theorem Under.eq_of_cons (hn : t.Under (n :: way) i) (hm : t.Under (m :: way) i) : n = m := by
  obtain ⟨up, hup, hn⟩ := hn
  obtain ⟨up', hup', hm⟩ := hm
  obtain rfl := hup.unique hup'
  have hsuffix : n :: way <:+ m :: way := List.suffix_of_suffix_length_le hn hm (Nat.le_refl _)
  exact (List.cons.inj (hsuffix.eq_of_length rfl)).1

/-- A node does not lie below one that is further down. -/
theorem Descent.notMem_below (h : t.Descent (n :: up)) : n ∉ t.below (m :: n :: up) := by
  intro hn
  obtain ⟨-, up', hup', hsuffix⟩ := mem_below.mp hn
  obtain rfl := h.lineage.unique hup'
  have hlength := hsuffix.length_le
  simp only [List.length_cons] at hlength
  omega

/-- Every way down that the check takes is a way down along the links. -/
theorem Descent.exists_nodeAt (h : t.Descent (n :: up)) : ∃ way, t.nodeAt way = some n := by
  generalize hway : n :: up = way at h
  induction h generalizing n up with
  | top htop =>
    cases hway
    exact ⟨[], htop⟩
  | @enter p m d up _ henter ih =>
    cases hway
    obtain ⟨way, hway⟩ := ih rfl
    exact ⟨way ++ [d], by rw [nodeAt_append_singleton, hway]; exact henter.child⟩

/-- The nodes with a record that hang in a slot of the lowest node of a way down. -/
noncomputable def belowSlot (t : Tree) (n : NodeId) (up : List NodeId) (d : Side) :
    Finset NodeId :=
  (t.child n d).elim ∅ fun m => t.below (m :: n :: up)

theorem mem_belowSlot :
    i ∈ t.belowSlot n up d ↔ ∃ m, t.child n d = some m ∧ i ∈ t.below (m :: n :: up) := by
  rw [belowSlot]
  cases t.child n d <;> simp

/-- Two children that differ have no descendants in common. -/
theorem Descent.disjoint_belowSlot (h : t.Descent (n :: up)) (htwice : ¬t.HoldsTwice) :
    Disjoint (t.belowSlot n up .left) (t.belowSlot n up .right) := by
  refine Finset.disjoint_left.mpr fun i hl hr => ?_
  obtain ⟨l, hleft, hl⟩ := mem_belowSlot.mp hl
  obtain ⟨r, hright, hr⟩ := mem_belowSlot.mp hr
  obtain rfl := (mem_below.mp hl).2.eq_of_cons (mem_below.mp hr).2
  obtain ⟨way, hway⟩ := h.exists_nodeAt
  exact htwice ⟨way, n, l, hway, hleft, hright⟩

theorem Descent.belowSlot_subset (h : t.Descent (n :: up)) (d : Side) :
    t.belowSlot n up d ⊆ (t.below (n :: up)).erase n := by
  intro i hi
  obtain ⟨m, -, hi⟩ := mem_belowSlot.mp hi
  refine Finset.mem_erase.mpr ⟨?_, below_cons_subset hi⟩
  rintro rfl
  exact h.notMem_below hi

theorem charges_below (htwice : ¬t.HoldsTwice) : t.Charges fun way => (t.below way).card := by
  intro n up h
  refine ⟨fun d => (t.belowSlot n up d).card, fun d m hm => ?_, ?_⟩
  · exact Finset.card_le_card fun i hi => mem_belowSlot.mpr ⟨m, hm.child, hi⟩
  · have hself : n ∈ t.below (n :: up) :=
      mem_below.mpr ⟨h.lt_size n List.mem_cons_self, up, h.lineage, List.suffix_refl _⟩
    have hsubset := Finset.union_subset (h.belowSlot_subset .left) (h.belowSlot_subset .right)
    have hcard := Finset.card_le_card hsubset
    rw [Finset.card_union_of_disjoint (h.disjoint_belowSlot htwice)] at hcard
    have hrest := Finset.card_erase_add_one hself
    show (t.belowSlot n up .left).card + 1 + (t.belowSlot n up .right).card ≤
      (t.below (n :: up)).card
    omega

theorem card_below_le (t : Tree) (way : List NodeId) : (t.below way).card ≤ t.store.size := by
  have hsubset : t.below way ⊆ Finset.range t.store.size :=
    fun i hi => Finset.mem_range.mpr (mem_below.mp hi).1
  have hcard := Finset.card_le_card hsubset
  rwa [Finset.card_range] at hcard

/-! ## When the count grows too large -/

/-- A count that grows too large takes a node that is held twice. -/
theorem holdsTwice_of_tooDeep (h : t.validate = .error (.tooDeep m)) : t.HoldsTwice := by
  by_contra htwice
  have hle := (charges_below htwice).countLimit_le (fun n => t.card_below_le [n]) h
  have hlt := t.size_lt_countLimit
  omega

/-- It also takes more records than a word has bits. -/
theorem size_lt_of_tooDeep (h : t.validate = .error (.tooDeep m)) : 64 < t.store.size := by
  have hle : t.countLimit ≤ 2 ^ t.store.size - 1 :=
    t.charges_fullBelow.countLimit_le (fun n => Nat.le_refl (t.fullBelow [n])) h
  have hword : 2 ^ 64 ≤ t.countLimit := Nat.le_max_left UInt64.size t.bound
  have hpow : 2 ^ 64 < 2 ^ t.store.size := by omega
  exact (Nat.pow_lt_pow_iff_right (by decide)).mp hpow

/-- Whatever the links are, the unbounded recursion of the check comes to one answer, and
this is what `validate` gives.  The bound on the depth is never met: calls that are open at
the same time are those of different nodes, all of which have records.  The size of a tree
that passes fits into a word.  The one answer that is no result, an overflow of the count,
needs more than 64 records, and some node on a way down from the top that holds one child in
both of its slots. -/
theorem validate_ends (t : Tree) :
    (∀ a, t.Checks .whole a ↔ a = t.validate) ∧
      (∀ seen way, t.CallChain seen way → way.Nodup ∧ way.length ≤ t.store.size) ∧
      (∀ st, t.validate = .ok st → st.size < t.countLimit) ∧
      ∀ n, t.validate = .error (.tooDeep n) → t.HoldsTwice ∧ 64 < t.store.size := by
  have hanswer := t.checks_validate
  refine ⟨fun a => ⟨fun ha => ha.unique hanswer, ?_⟩, fun seen way hway => ?_,
    fun st hst => hanswer.counted hst, fun n hn => ?_⟩
  · rintro rfl
    exact hanswer
  · exact ⟨hway.descent.lineage.nodup, hway.descent.length_le⟩
  · exact ⟨holdsTwice_of_tooDeep hn, size_lt_of_tooDeep hn⟩

/-! ## The chain on which the count doubles -/

/-- The node after `i` in a chain of `k` nodes. -/
def nextOf (k i : Nat) : Option NodeId := if i + 1 < k then some (i + 1) else none

/-- A chain of `k` black nodes.  Each of them holds the next one in both of its slots. -/
def doubledChain (k : Nat) : Tree where
  store := ⟨Array.ofFn fun i : Fin k =>
    { parent := if i.val = 0 then none else some (i.val - 1)
      color := .black, left := nextOf k i, right := nextOf k i }⟩
  top := if 0 < k then some 0 else none

theorem record_doubledChain {i : Nat} (hi : i < k) :
    (doubledChain k).record i =
      { parent := if i = 0 then none else some (i - 1)
        color := .black, left := nextOf k i, right := nextOf k i } := by
  simp [record, doubledChain, Table.get, Array.getD, hi]

theorem color_doubledChain {i : Nat} (hi : i < k) : (doubledChain k).color i = .black := by
  rw [color, record_doubledChain hi]

theorem child_doubledChain {i : Nat} (hi : i < k) (d : Side) :
    (doubledChain k).child i d = nextOf k i := by
  rw [child, record_doubledChain hi]
  cases d <;> rfl

theorem enters_doubledChain {i : Nat} (hi : i + 1 < k) (d : Side) :
    (doubledChain k).Enters i d (i + 1) := by
  refine ⟨?_, ?_, ?_⟩
  · rw [child_doubledChain (Nat.lt_of_succ_lt hi), nextOf, if_pos hi]
  · rw [parent, record_doubledChain hi]
    rfl
  · rw [color_doubledChain hi]
    simp

/-- The measures of a full tree of `k` levels, all of whose nodes are black. -/
def fullStats (k : Nat) : Stats := ⟨2 ^ k - 1, k, k⟩

theorem join_fullStats (k : Nat) :
    Stats.join .black (fullStats k) (fullStats k) = fullStats (k + 1) := by
  have hpos : 0 < 2 ^ k := Nat.two_pow_pos k
  have hsize : 2 ^ k - 1 + 1 + (2 ^ k - 1) = 2 ^ (k + 1) - 1 := by
    rw [Nat.pow_succ]
    omega
  have hheight : 1 + max k k = k + 1 := by omega
  show (⟨2 ^ k - 1 + 1 + (2 ^ k - 1), k + 1, 1 + max k k⟩ : Stats) =
    ⟨2 ^ (k + 1) - 1, k + 1, k + 1⟩
  rw [hsize, hheight]

/-- The answer for a full tree of `j` levels, unless its nodes are too many. -/
def Fills (t : Tree) (seen j : Nat) (a : Except Violation Stats) : Prop :=
  (seen + 2 ^ j ≤ t.countLimit → a = .ok (fullStats j)) ∧
    (t.countLimit < seen + 2 ^ j → ∃ n, a = .error (.tooDeep n))

/-- A black node over two full trees is the top of a full tree.  The right one is counted
where the left one has ended. -/
theorem fills_checkBelow {depth j : Nat} (hcolor : t.color n = .black)
    (hslot : ∀ seen d, seen < t.countLimit →
      t.Fills seen j (t.checkSlot (t.checkBelow depth seen) n d)) :
    t.Fills seen (j + 1) (t.checkBelow (depth + 1) seen n) := by
  have hpos : 0 < 2 ^ j := Nat.two_pow_pos j
  rw [Fills, Nat.pow_succ, checkBelow]
  by_cases hseen : seen + 1 < t.countLimit
  · obtain ⟨hlfits, hlover⟩ := hslot (seen + 1) .left hseen
    rw [if_pos hseen]
    by_cases hleft : seen + 1 + 2 ^ j ≤ t.countLimit
    · have hcount : seen + 1 + (fullStats j).size = seen + 2 ^ j := by
        show seen + 1 + (2 ^ j - 1) = seen + 2 ^ j
        omega
      obtain ⟨hrfits, hrover⟩ := hslot (seen + 2 ^ j) .right (by omega)
      rw [hlfits hleft, joined_ok, hcount]
      constructor
      · intro hfits
        rw [hrfits (by omega), ← join_fullStats, ← hcolor]
        exact if_pos rfl
      · intro hover
        obtain ⟨m, hm⟩ := hrover (by omega)
        exact ⟨m, by rw [hm]; rfl⟩
    · obtain ⟨m, hm⟩ := hlover (by omega)
      exact ⟨fun hfits => by omega, fun _ => ⟨m, by rw [hm]; rfl⟩⟩
  · rw [if_neg hseen]
    exact ⟨fun hfits => by omega, fun _ => ⟨n, rfl⟩⟩

/-- Where `j` nodes come after `i` in the chain, a full tree of `j` levels hangs in both of its
slots. -/
theorem fills_checkSlot_doubledChain {i j depth : Nat} (hi : i + j + 1 = k) (hdepth : j ≤ depth)
    (hseen : seen < (doubledChain k).countLimit) (d : Side) :
    (doubledChain k).Fills seen j
      ((doubledChain k).checkSlot ((doubledChain k).checkBelow depth seen) i d) := by
  induction j generalizing depth seen i d with
  | zero =>
    have hnone : (doubledChain k).child i d = none := by
      rw [child_doubledChain (by omega), nextOf, if_neg (by omega)]
    rw [checkSlot, hnone]
    exact ⟨fun _ => rfl, fun hover => by omega⟩
  | succ j ih =>
    obtain ⟨depth, rfl⟩ : ∃ l, depth = l + 1 := ⟨depth - 1, by omega⟩
    have henter : (doubledChain k).Enters i d (i + 1) := enters_doubledChain (by omega) d
    rw [checkSlot_of_enters henter]
    exact fills_checkBelow (color_doubledChain (by omega)) fun seen d hseen =>
      ih (by omega) (by omega) hseen d

/-- The chain passes the check as a full tree as long as it has no more nodes than a word has
bits.  From then on the nodes of that tree are too many. -/
theorem validate_doubledChain (k : Nat) :
    (k ≤ 64 → (doubledChain k).validate = .ok (fullStats k)) ∧
      (64 < k → ∃ n, (doubledChain k).validate = .error (.tooDeep n)) := by
  cases k with
  | zero => exact ⟨fun _ => rfl, fun h => by omega⟩
  | succ j =>
    have hsize : (doubledChain (j + 1)).store.size = j + 1 := by simp [doubledChain, Table.size]
    have hfills : (doubledChain (j + 1)).Fills 0 (j + 1) (doubledChain (j + 1)).validate := by
      rw [validate_of_top rfl (color_doubledChain (Nat.zero_lt_succ j)) (by
        rw [parent, record_doubledChain (Nat.zero_lt_succ j)]; rfl), hsize]
      exact fills_checkBelow (color_doubledChain (Nat.zero_lt_succ j)) fun seen d hseen =>
        fills_checkSlot_doubledChain (by omega) (Nat.le_refl j) hseen d
    have hlimit : (doubledChain (j + 1)).countLimit = max (2 ^ 64) (j + 2) := by
      rw [countLimit, bound, hsize]
      rfl
    rw [Fills, hlimit, Nat.zero_add] at hfills
    refine ⟨fun hk => hfills.1 ?_, fun hk => hfills.2 ?_⟩
    · have hpow : 2 ^ (j + 1) ≤ 2 ^ 64 := Nat.pow_le_pow_right (by decide) hk
      omega
    · have hpow : 2 ^ 64 < 2 ^ (j + 1) := Nat.pow_lt_pow_right (by decide) hk
      have hself : j < 2 ^ j := Nat.lt_two_pow_self
      rw [Nat.pow_succ] at hpow ⊢
      omega

/-- With 65 nodes the check of the chain overflows: it answers neither the measures nor a
broken rule. -/
theorem validate_overflows :
    (doubledChain 65).store.size = 65 ∧ ∃ n, (doubledChain 65).validate = .error (.tooDeep n) :=
  ⟨rfl, (validate_doubledChain 65).2 (by decide)⟩

end RedBlack.Tree
