import RedBlack.Proofs.Pool.Runs

/-!
# Pools after an overflow

A call that raises all numbers and meets one that would grow too large leaves the numbers before
it raised and the others as they were.  A pool can be used after that, but its numbers need not
ascend any more, and then it does not find all of them.

* `Lists.perform` says that every call on every pool leaves a valid tree of elements, whatever
  the order of the numbers is.
* `pairwise_raised_iff` is what decides about the order: no raised number may come to stand above
  one that was not raised.  `Move.Steady` says so of a call, and `Lists.ordered_perform_iff` is
  one call on an ordered pool.
* `ordered_iff_steady` is the result for whole runs, and `raiseAll_hides_number` is a run in
  which a number of the pool cannot be taken out.
-/

namespace RedBlack.Pool

variable {p p' : Pool} {xs : List NodeId} {v shift : UInt64}

/-! ## Any call on any pool -/

/-- The pool that a call leaves does not depend on the answer that it is given. -/
theorem state_perform_unit (o : Outcome Pool Unit) :
    (o.andThen fun () p => .ok (none : Option UInt64) p).state = o.state := by
  cases o <;> rfl

/-- A number can also be put in where the numbers do not ascend. -/
theorem Lists.exists_insert (h : p.Lists xs) (v : UInt64) :
    ∃ p' ys, p.insert v = .ok () p' ∧ p'.Lists ys := by
  have hsize : (p.entries.create v).2.values.size = p.entries.values.size + 1 := by
    simp [Entries.create]
  obtain ⟨slot, t', -, hinsert, ht'⟩ :=
    (Entries.holds_create h.holds h.known v).insert (p.entries.create v).2.compareNodes h.fresh
  have hedit : (p.entries.create v).2.insertNode (some p.entries.values.size) =
      .ok () ⟨t', (p.entries.create v).2.values⟩ := Entries.edit_ok hinsert
  refine ⟨⟨⟨t', _⟩⟩, _, congrArg (Outcome.inside · Pool.mk) hedit, ht'.holds, fun n hn => ?_⟩
  show n < (p.entries.create v).2.values.size
  rw [hsize]
  rcases List.eq_or_mem_of_mem_insertIdx hn with rfl | hn
  · exact Nat.lt_succ_self _
  · exact Nat.lt_succ_of_lt (h.known n hn)

theorem Lists.exists_take {n : Option NodeId} (h : p.Lists xs) (hn : ∀ k, n = some k → k ∈ xs) :
    ∃ ys, (p.take n).state.Lists ys := by
  cases n with
  | none => exact ⟨xs, h⟩
  | some k =>
    obtain ⟨p', hremove, hp', -⟩ := h.remove (hn k rfl)
    refine ⟨xs.erase k, ?_⟩
    rw [take, hremove]
    exact hp'

/-- Every call leaves a red-black tree of elements. -/
theorem Lists.perform (h : p.Lists xs) (mv : Move) : ∃ ys, (mv.perform p).state.Lists ys := by
  cases mv with
  | insert v =>
    obtain ⟨p', ys, hinsert, hys⟩ := h.exists_insert v
    rw [Move.perform, state_perform_unit, hinsert]
    exact ⟨ys, hys⟩
  | removeValue v =>
    obtain ⟨found, hfind, hsome⟩ := h.find_some v
    rw [Move.perform, state_perform_unit, removeValue, hfind]
    cases found with
    | none => exact ⟨xs, h⟩
    | some n =>
      obtain ⟨p', hremove, hp', -⟩ := h.remove (hsome n rfl).1
      refine ⟨xs.erase n, ?_⟩
      show Lists ((p.entries.remove (some n)).inside Pool.mk).state _
      rw [hremove]
      exact hp'
  | popFirst =>
    rw [Move.perform, popFirst, h.holds.walks.first]
    exact h.exists_take fun k hk => List.mem_of_mem_head? hk
  | popLast =>
    rw [Move.perform, popLast, h.holds.walks.last]
    exact h.exists_take fun k hk => List.mem_of_mem_getLast? hk
  | popTop => exact h.exists_take fun k hk => h.holds.mem_of_top hk
  | raiseAll shift =>
    obtain ⟨p', ys, hstate, -, hys, -⟩ := h.raiseAll shift
    rw [Move.perform, state_perform_unit, hstate]
    exact ⟨ys, hys⟩

/-! ## Order -/

/-- The numbers of the pool can be read, and they ascend. -/
def Ordered (p : Pool) : Prop := ∃ vs, p.toList = .ok vs ∧ vs.Pairwise (· ≤ ·)

/-- The call raises no number past one that cannot be raised. -/
def Move.Steady (p : Pool) : Move → Prop
  | raiseAll shift => ∀ vs, p.toList = .ok vs → ∀ v ∈ vs, ∀ w ∈ vs,
      Pool.Fits shift v → ¬Pool.Fits shift w → v.toNat + shift.toNat ≤ w.toNat
  | _ => True

theorem Lists.ordered_iff (h : p.Lists xs) : p.Ordered ↔ p.Ascends xs := by
  rw [Ordered, toList_eq h.holds]
  constructor
  · rintro ⟨vs, hvs, hasc⟩
    obtain rfl := Except.ok.inj hvs
    exact hasc
  · exact fun hasc => ⟨_, rfl, hasc⟩

theorem Lists.keeps (h : p.Lists xs) (hasc : p.Ascends xs) : p.Keeps (xs.map p.valueOf) :=
  ⟨xs, h, (sort_eq_of_pairwise hasc rfl).symm⟩

/-- In ascending numbers, none that can be raised comes after one that cannot. -/
theorem not_fits_of_mem_dropWhile {vs : List UInt64} {w : UInt64} (hvs : vs.Pairwise (· ≤ ·))
    (hw : w ∈ vs.dropWhile (Fits shift ·)) : ¬Fits shift w := by
  induction vs with
  | nil => cases hw
  | cons v vs ih =>
    obtain ⟨hle, hvs⟩ := List.pairwise_cons.mp hvs
    by_cases hv : Fits shift v
    · rw [List.dropWhile_cons_of_pos (by simpa using hv)] at hw
      exact ih hvs hw
    · rw [List.dropWhile_cons_of_neg (by simpa using hv)] at hw
      rcases List.mem_cons.mp hw with rfl | hw
      · exact hv
      · have hvw := UInt64.le_iff_toNat_le.mp (hle w hw)
        rw [Fits] at hv ⊢
        omega

/-- Ascending numbers of which the first ones are raised ascend when no raised one is above
one of the others. -/
theorem pairwise_raised_iff {vs : List UInt64} (hvs : vs.Pairwise (· ≤ ·)) :
    ((vs.takeWhile (Fits shift ·)).map (· + shift) ++ vs.dropWhile (Fits shift ·)).Pairwise
        (· ≤ ·) ↔
      ∀ v ∈ vs, ∀ w ∈ vs, Fits shift v → ¬Fits shift w → v.toNat + shift.toNat ≤ w.toNat := by
  have hfits : ∀ v ∈ vs.takeWhile (Fits shift ·), Fits shift v := fun _ => fits_of_mem_takeWhile
  have hstays : ∀ w ∈ vs.dropWhile (Fits shift ·), ¬Fits shift w :=
    fun _ => not_fits_of_mem_dropWhile hvs
  have hsplit := List.takeWhile_append_dropWhile (p := (Fits shift ·)) (l := vs)
  generalize vs.takeWhile (Fits shift ·) = now at hfits hsplit ⊢
  generalize vs.dropWhile (Fits shift ·) = rest at hstays hsplit ⊢
  subst hsplit
  obtain ⟨hnow, hrest, -⟩ := List.pairwise_append.mp hvs
  have hraised : (now.map (· + shift)).Pairwise (· ≤ ·) := by
    rw [List.pairwise_map]
    refine hnow.imp_of_mem fun {v w} hv hw hvw => ?_
    rw [UInt64.le_iff_toNat_le] at hvw ⊢
    rw [toNat_add_of_fits (hfits v hv), toNat_add_of_fits (hfits w hw)]
    omega
  rw [List.pairwise_append]
  constructor
  · rintro ⟨-, -, hcross⟩ v hv w hw hvfits hwfits
    have hvnow : v ∈ now := (List.mem_append.mp hv).resolve_right fun h => hstays v h hvfits
    have hwrest : w ∈ rest := (List.mem_append.mp hw).resolve_left fun h => hwfits (hfits w h)
    have hle := UInt64.le_iff_toNat_le.mp (hcross _ (List.mem_map_of_mem hvnow) w hwrest)
    rwa [toNat_add_of_fits hvfits] at hle
  · intro hcross
    refine ⟨hraised, hrest, fun u hu w hw => ?_⟩
    obtain ⟨v, hv, rfl⟩ := List.mem_map.mp hu
    rw [UInt64.le_iff_toNat_le, toNat_add_of_fits (hfits v hv)]
    exact hcross v (List.mem_append_left _ hv) w (List.mem_append_right _ hw) (hfits v hv)
      (hstays w hw)

/-- A call keeps the order exactly when it is steady. -/
theorem Lists.ordered_perform_iff (h : p.Lists xs) (hasc : p.Ascends xs) (mv : Move) :
    (mv.perform p).state.Ordered ↔ mv.Steady p := by
  have hkept (hfits : mv.Fits (xs.map p.valueOf)) : (mv.perform p).state.Ordered :=
    ⟨_, ((h.keeps hasc).step hfits).2.shows.toList, Multiset.pairwise_sort ..⟩
  cases mv with
  | raiseAll shift =>
    obtain ⟨p', ys, hstate, -, hys, hvalues⟩ := h.raiseAll shift
    rw [Move.perform, state_perform_unit, hstate, hys.ordered_iff, Ascends, hvalues,
      pairwise_raised_iff hasc, Move.Steady]
    constructor
    · intro hcross vs hvs
      obtain rfl := Except.ok.inj ((toList_eq h.holds).symm.trans hvs)
      exact hcross
    · exact fun hcross => hcross _ (toList_eq h.holds)
  | _ => exact iff_of_true (hkept trivial) trivial

/-! ## Runs -/

/-- The pool after some calls, whether they succeed or fail. -/
def after (p : Pool) (moves : List Move) : Pool :=
  moves.foldl (fun p mv => (mv.perform p).state) p

/-- Every call of the run is steady. -/
def SteadyRun (p : Pool) : List Move → Prop
  | [] => True
  | mv :: rest => mv.Steady p ∧ SteadyRun (mv.perform p).state rest

theorem Lists.after (h : p.Lists xs) (moves : List Move) : ∃ ys, (p.after moves).Lists ys := by
  induction moves generalizing p xs with
  | nil => exact ⟨xs, h⟩
  | cons mv rest ih =>
    obtain ⟨ys, hys⟩ := h.perform mv
    exact ih hys

/-- From an ordered pool on, the numbers ascend all the time exactly when every call is
steady.  The induction is on the calls: the first one that is not steady loses the order. -/
theorem Lists.forall_ordered_iff (h : p.Lists xs) (hasc : p.Ascends xs) (moves : List Move) :
    (∀ done, done <+: moves → (p.after done).Ordered) ↔ SteadyRun p moves := by
  induction moves generalizing p xs with
  | nil =>
    refine iff_of_true (fun done hdone => ?_) trivial
    rw [List.prefix_nil.mp hdone]
    exact h.ordered_iff.mpr hasc
  | cons mv rest ih =>
    obtain ⟨ys, hys⟩ := h.perform mv
    have hstep := h.ordered_perform_iff hasc mv
    constructor
    · intro hall
      have hnext : (mv.perform p).state.Ordered := hall [mv] (by simp)
      refine ⟨hstep.mp hnext, (ih hys (hys.ordered_iff.mp hnext)).mp fun done hdone => ?_⟩
      exact hall (mv :: done) (List.cons_prefix_cons.mpr ⟨rfl, hdone⟩)
    · rintro ⟨hmv, hrest⟩ done hdone
      rcases List.prefix_cons_iff.mp hdone with rfl | ⟨done', rfl, hdone'⟩
      · exact h.ordered_iff.mpr hasc
      · exact (ih hys (hys.ordered_iff.mp (hstep.mpr hmv))).mpr hrest done' hdone'

/-- A pool with the numbers `vs`, in the order in which they are read, whatever that is. -/
structure Usable (p : Pool) (vs : List UInt64) : Prop where
  toList : p.toList = .ok vs
  validate : ∃ blackHeight height, p.validate = .ok ⟨vs.length, blackHeight, height⟩
  /-- A number that is not there is refused, which changes nothing. -/
  absent : ∀ v, v ∉ vs → p.removeValue v = .error (.refused .noEntry) p
  /-- A number that is there can be taken out while the numbers ascend. -/
  present : vs.Pairwise (· ≤ ·) → ∀ v ∈ vs,
    ∃ p', p.removeValue v = .ok () p' ∧ p'.toList = .ok (vs.erase v)

theorem Lists.usable (h : p.Lists xs) : p.Usable (xs.map p.valueOf) where
  toList := toList_eq h.holds
  validate := by
    rw [List.length_map]
    exact h.holds.validate
  absent v hv := by
    obtain ⟨found, hfind, hsome⟩ := h.find_some v
    rw [removeValue, hfind]
    cases found with
    | none => rfl
    | some n =>
      obtain ⟨hn, rfl⟩ := hsome n rfl
      exact absurd (List.mem_map_of_mem hn) hv
  present hasc v hv := by
    obtain ⟨p', hremove, hp'⟩ := ((h.keeps hasc).removeValue v).1 hv
    refine ⟨p', hremove, ?_⟩
    have herase : ((xs.map p.valueOf).erase v).Pairwise (· ≤ ·) :=
      hasc.sublist List.erase_sublist
    rw [hp'.shows.toList, Multiset.coe_erase, sort_eq_of_pairwise herase rfl]

/-- After any run from an empty pool, in which calls may fail because a number would grow too
large, the tree of the pool is valid and no number is taken out that is not there.  The numbers
ascend after every call of the run exactly when no call raises a number past one that it
cannot raise.  While they ascend, exactly the numbers that are there can be taken out. -/
theorem ordered_iff_steady {p₀ : Pool} (hempty : p₀.tree.top = none) (moves : List Move) :
    (∃ vs, (p₀.after moves).Usable vs) ∧
      ((∀ done, done <+: moves → (p₀.after done).Ordered) ↔ SteadyRun p₀ moves) := by
  have h : p₀.Lists [] := ⟨Tree.holds_nil hempty, nofun⟩
  obtain ⟨ys, hys⟩ := h.after moves
  exact ⟨⟨_, hys.usable⟩, h.forall_ordered_iff .nil moves⟩

/-- The larger number cannot be raised, and the smaller one stays below it. -/
theorem ordered_iff_steady_of_gap :
    let moves : List Move := [.insert 5, .insert 18446744073709551615, .raiseAll 3]
    (Pool.tree {}).top = none ∧ SteadyRun {} moves ∧
      (∀ done, done <+: moves → (after {} done).Ordered) ∧
      ((after {} [.insert 5, .insert 18446744073709551615]).raiseAll 3).answer =
        .error .overflow ∧
      (after {} moves).Usable [8, 18446744073709551615] ∧
      ∃ p', (after {} moves).removeValue 18446744073709551615 = .ok () p' ∧
        p'.toList = .ok [8] := by
  intro moves
  have hempty : (Pool.tree {}).top = none := rfl
  have hsteady : SteadyRun {} moves := by
    refine ⟨trivial, trivial, fun vs hvs => ?_, trivial⟩
    have hlist : (after {} [.insert 5, .insert 18446744073709551615]).toList =
        .ok [5, 18446744073709551615] := by decide +kernel
    obtain rfl : [5, 18446744073709551615] = vs := Except.ok.inj (hlist.symm.trans hvs)
    simp only [List.forall_mem_cons, List.not_mem_nil, false_implies, implies_true, and_true]
    decide +kernel
  obtain ⟨⟨vs, hvs⟩, hiff⟩ := ordered_iff_steady hempty moves
  have hlist : (after {} moves).toList = .ok [8, 18446744073709551615] := by decide +kernel
  obtain rfl : [8, 18446744073709551615] = vs := Except.ok.inj (hlist.symm.trans hvs.toList)
  exact ⟨hempty, hsteady, hiff.mpr hsteady, by decide +kernel, hvs,
    hvs.present (by decide) _ (by decide)⟩

/-- The smaller of two numbers is raised past the larger one, which cannot be raised.  After
that the larger one is still in the pool, and taking it out is refused. -/
theorem raiseAll_hides_number :
    let p := after {} [.insert 18446744073709551613, .insert 18446744073709551614, .raiseAll 2]
    ((after {} [.insert 18446744073709551613, .insert 18446744073709551614]).raiseAll 2).answer =
        .error .overflow ∧
      p.toList = .ok [18446744073709551615, 18446744073709551614] ∧ ¬p.Ordered ∧
      (p.removeValue 18446744073709551614).answer = .error (.refused .noEntry) := by
  intro p
  have hlist : p.toList = .ok [18446744073709551615, 18446744073709551614] := by decide +kernel
  refine ⟨by decide +kernel, hlist, ?_, by decide +kernel⟩
  rintro ⟨vs, hvs, hasc⟩
  obtain rfl := Except.ok.inj (hlist.symm.trans hvs)
  exact absurd hasc (by decide)

end RedBlack.Pool
