import Mathlib.Data.Multiset.Sort
import RedBlack.Proofs.Pool.Raising

/-!
# A pool is a sorted multiset

Callers of a pool need to know no more than which numbers are in it, and how often.  All that
a pool answers is then a function of this multiset, except for the number at the top of its
tree, which is some number of the multiset.

* `sort_eq_of_pairwise` is how a list of numbers is known to be the ascending one.
* `Pool.Keeps` is the invariant: the numbers of the tree ascend and are those of the multiset.
  `Keeps.shows` is what can be read off, and `Keeps.insert`, `Keeps.removeValue`,
  `Keeps.popFirst`, `Keeps.popLast`, `Keeps.popTop` and `Keeps.raiseAll` are the calls.
* `Pool.Move` is one call, `Move.answer` what it has to answer and `Move.record` what becomes
  of the multiset.  `Keeps.step` is one call and `Run.keeps` a run.
* `drain` takes numbers out until there are none; `drain_eq` covers both ends.
* `run_refines` is the result, from an empty pool on.
-/

namespace RedBlack

/-! ## Ascending numbers -/

/-- Ascending numbers are the sorted list of their multiset. -/
theorem sort_eq_of_pairwise {vs : List UInt64} {m : Multiset UInt64} (hvs : vs.Pairwise (· ≤ ·))
    (hm : (vs : Multiset UInt64) = m) : m.sort = vs := by
  have hperm : m.sort.Perm vs := by
    rw [← Multiset.coe_eq_coe, Multiset.sort_eq, hm]
  exact hperm.eq_of_pairwise (fun _ _ _ _ => UInt64.le_antisymm) (m.pairwise_sort _) hvs

/-- Raising keeps the order where nothing grows too large. -/
theorem sort_map_add {m : Multiset UInt64} {shift : UInt64}
    (h : ∀ v ∈ m, v.toNat + shift.toNat < UInt64.size) :
    (m.map (· + shift)).sort = m.sort.map (· + shift) := by
  have hsum : ∀ v ∈ m, (v + shift).toNat = v.toNat + shift.toNat :=
    fun v hv => Pool.toNat_add_of_fits (h v hv)
  refine (Multiset.map_sort _ _ _ _ fun v hv w hw => ?_).symm
  rw [UInt64.le_iff_toNat_le, UInt64.le_iff_toNat_le, hsum v hv, hsum w hw]
  omega

theorem sort_eq_nil_iff {m : Multiset UInt64} : m.sort = [] ↔ m = 0 := by
  rw [← List.length_eq_zero_iff, Multiset.length_sort, Multiset.card_eq_zero]

namespace Pool

/-- The multiset without one occurrence of a number, if there is a number. -/
def without (m : Multiset UInt64) (v : Option UInt64) : Multiset UInt64 := v.elim m m.erase

/-- The numbers in the order in which a caller of the status interface walks over them. -/
def walk (p : Pool) : Except Fault (List UInt64) := do
  return (← (Forest.ofTree p.tree).toList (some 0)).map p.valueOf

/-- What can be read off a pool with the numbers `m`. -/
structure Shows (p : Pool) (m : Multiset UInt64) : Prop where
  toList : p.toList = .ok m.sort
  toListReverse : p.toListReverse = .ok m.sort.reverse
  walk : p.walk = .ok m.sort
  isEmpty : p.isEmpty = true ↔ m = 0
  validate : ∃ blackHeight height, p.validate = .ok ⟨m.card, blackHeight, height⟩
  top_mem : ∀ v, p.top? = some v → v ∈ m
  top_none : p.top? = none ↔ m = 0

/-- The pool holds the numbers `m`, and they ascend in its tree. -/
def Keeps (p : Pool) (m : Multiset UInt64) : Prop :=
  ∃ xs, p.Lists xs ∧ xs.map p.valueOf = m.sort

variable {p p' : Pool} {xs : List NodeId} {m : Multiset UInt64} {v : UInt64}

/-! ## Reading -/

theorem keeps_of_empty (h : p.tree.top = none) : p.Keeps 0 :=
  ⟨[], ⟨Tree.holds_nil h, nofun⟩, (sort_eq_nil_iff.mpr rfl).symm⟩

theorem mem_iff_of_sort (h : xs.map p.valueOf = m.sort) : v ∈ m ↔ v ∈ xs.map p.valueOf := by
  rw [h, Multiset.mem_sort]

theorem valueOf_mem {n : NodeId} (h : xs.map p.valueOf = m.sort) (hn : n ∈ xs) :
    p.valueOf n ∈ m :=
  (mem_iff_of_sort h).mpr (List.mem_map_of_mem hn)

theorem Keeps.shows (h : p.Keeps m) : p.Shows m := by
  obtain ⟨xs, hxs, hsort⟩ := h
  have hwalks := hxs.holds.walks
  have hbound := hxs.holds.length_le_bound
  have hlength : xs.length = m.card := by
    rw [← Multiset.length_sort (· ≤ ·), ← hsort, List.length_map]
  have hnil : xs = [] ↔ m = 0 := by rw [← sort_eq_nil_iff, ← hsort, List.map_eq_nil_iff]
  -- A step of the status interface reads the records only, as one of the tree does.
  have hwalk : (Forest.ofTree p.tree).toList (some 0) = .ok xs := hwalks.collect hbound
  have hreverse : p.tree.toListReverse = .ok xs.reverse :=
    hwalks.reverse.collect (by rwa [List.length_reverse])
  refine ⟨?_, ?_, ?_, ?_, ?_, fun v hv => ?_, ?_⟩
  · rw [toList_eq hxs.holds, hsort]
  · rw [Pool.toListReverse, hreverse, ← hsort, ← List.map_reverse]
    rfl
  · rw [Pool.walk, hwalk, ← hsort]
    rfl
  · rw [Pool.isEmpty, hxs.holds.isEmpty_iff, hnil]
  · rw [← hlength]
    exact hxs.holds.validate
  · obtain ⟨n, hn, rfl⟩ := Option.map_eq_some_iff.mp hv
    exact valueOf_mem hsort (hxs.holds.mem_of_top hn)
  · rw [top?, Option.map_eq_none_iff, hxs.holds.top_eq_none_iff, hnil]

/-! ## Calls -/

theorem ascends_of_sort (h : xs.map p.valueOf = m.sort) : p.Ascends xs := by
  rw [Ascends, h]
  exact m.pairwise_sort _

theorem Keeps.insert (h : p.Keeps m) (v : UInt64) :
    ∃ p', p.insert v = .ok () p' ∧ p'.Keeps (v ::ₘ m) := by
  obtain ⟨xs, hxs, hsort⟩ := h
  obtain ⟨p', ys, hinsert, hys, hasc, hperm⟩ := hxs.insert (ascends_of_sort hsort) v
  refine ⟨p', hinsert, ys, hys, (sort_eq_of_pairwise hasc ?_).symm⟩
  rw [Multiset.coe_eq_coe.mpr hperm, hsort, ← Multiset.cons_coe, Multiset.sort_eq]

/-- Removing an element takes out one occurrence of its number. -/
theorem Lists.keeps_remove {n : NodeId} (hxs : p.Lists xs) (hsort : xs.map p.valueOf = m.sort)
    (hn : n ∈ xs) :
    ∃ p', (p.entries.remove (some n)).inside Pool.mk = .ok () p' ∧
      p'.Keeps (m.erase (p.valueOf n)) := by
  obtain ⟨p', hremove, hp', hvalues⟩ := hxs.remove hn
  refine ⟨p', hremove, xs.erase n, hp', (sort_eq_of_pairwise ?_ ?_).symm⟩
  · rw [hvalues]
    exact (ascends_of_sort hsort).sublist ((List.erase_sublist (a := n)).map p.valueOf)
  · rw [hvalues, ← Multiset.map_coe, ← Multiset.coe_erase, Multiset.map_erase_of_mem _ _ hn,
      Multiset.map_coe, hsort, Multiset.sort_eq]

/-- Taking out a number that is there succeeds, and taking out another one is refused and
changes nothing. -/
theorem Keeps.removeValue (h : p.Keeps m) (v : UInt64) :
    (v ∈ m → ∃ p', p.removeValue v = .ok () p' ∧ p'.Keeps (m.erase v)) ∧
      (v ∉ m → p.removeValue v = .error (.refused .noEntry) p) := by
  obtain ⟨xs, hxs, hsort⟩ := h
  obtain ⟨found, hfind, hsome, hnone⟩ := hxs.find (ascends_of_sort hsort) v
  rw [Pool.removeValue, hfind, mem_iff_of_sort hsort]
  cases found with
  | none => exact ⟨fun hv => absurd hv (hnone rfl), fun _ => rfl⟩
  | some n =>
    obtain ⟨hn, rfl⟩ := hsome n rfl
    exact ⟨fun _ => hxs.keeps_remove hsort hn, fun hv => absurd (List.mem_map_of_mem hn) hv⟩

/-- Taking out a node of the tree, if there is one. -/
theorem Lists.keeps_take {n : Option NodeId} (hxs : p.Lists xs)
    (hsort : xs.map p.valueOf = m.sort) (hn : ∀ k, n = some k → k ∈ xs) :
    ∃ p', p.take n = .ok (n.map p.valueOf) p' ∧ p'.Keeps (without m (n.map p.valueOf)) := by
  cases n with
  | none => exact ⟨p, rfl, xs, hxs, hsort⟩
  | some k =>
    obtain ⟨p', hremove, hp'⟩ := hxs.keeps_remove hsort (hn k rfl)
    refine ⟨p', ?_, hp'⟩
    rw [take, hremove]
    rfl

theorem Keeps.popFirst (h : p.Keeps m) :
    ∃ p', p.popFirst = .ok m.sort.head? p' ∧ p'.Keeps (without m m.sort.head?) := by
  obtain ⟨xs, hxs, hsort⟩ := h
  rw [← hsort, List.head?_map, Pool.popFirst, hxs.holds.walks.first]
  exact hxs.keeps_take hsort fun k hk => List.mem_of_mem_head? hk

theorem Keeps.popLast (h : p.Keeps m) :
    ∃ p', p.popLast = .ok m.sort.getLast? p' ∧ p'.Keeps (without m m.sort.getLast?) := by
  obtain ⟨xs, hxs, hsort⟩ := h
  rw [← hsort, List.getLast?_map, Pool.popLast, hxs.holds.walks.last]
  exact hxs.keeps_take hsort fun k hk => List.mem_of_mem_getLast? hk

theorem Keeps.popTop (h : p.Keeps m) :
    ∃ p', p.popTop = .ok p.top? p' ∧ p'.Keeps (without m p.top?) := by
  obtain ⟨xs, hxs, hsort⟩ := h
  exact hxs.keeps_take hsort fun k hk => hxs.holds.mem_of_top hk

theorem Keeps.raiseAll {shift : UInt64} (h : p.Keeps m)
    (hfits : ∀ v ∈ m, v.toNat + shift.toNat < UInt64.size) :
    ∃ p', p.raiseAll shift = .ok () p' ∧ p'.Keeps (m.map (· + shift)) := by
  obtain ⟨xs, hxs, hsort⟩ := h
  have hall : ∀ v ∈ xs.map p.valueOf, Pool.Fits shift v := fun v hv =>
    hfits v ((mem_iff_of_sort hsort).mpr hv)
  obtain ⟨p', ys, -, hcall, hys, hvalues⟩ := hxs.raiseAll shift
  rw [List.takeWhile_eq_self_iff.mpr (by simpa using hall),
    List.dropWhile_eq_nil_iff.mpr (by simpa using hall), List.append_nil] at hvalues
  exact ⟨p', hcall hall, ys, hys, by rw [hvalues, hsort, sort_map_add hfits]⟩

/-! ## Runs -/

/-- One call on a pool. -/
inductive Move where
  | insert (v : UInt64)
  | removeValue (v : UInt64)
  | popFirst
  | popLast
  | popTop
  | raiseAll (shift : UInt64)

namespace Move

/-- Makes the call.  A call that only succeeds or fails answers `none`. -/
def perform (p : Pool) : Move → Outcome Pool (Option UInt64)
  | insert v => (p.insert v).andThen fun () p => .ok none p
  | removeValue v => (p.removeValue v).andThen fun () p => .ok none p
  | popFirst => p.popFirst
  | popLast => p.popLast
  | popTop => p.popTop
  | raiseAll shift => (p.raiseAll shift).andThen fun () p => .ok none p

/-- No number grows too large. -/
def Fits (m : Multiset UInt64) : Move → Prop
  | raiseAll shift => ∀ v ∈ m, v.toNat + shift.toNat < UInt64.size
  | _ => True

/-- What the call has to answer on the pool `p` with the numbers `m`. -/
def answer (p : Pool) (m : Multiset UInt64) : Move → Except Failure (Option UInt64)
  | insert _ | raiseAll _ => .ok none
  | removeValue v => if v ∈ m then .ok none else .error (.refused .noEntry)
  | popFirst => .ok m.sort.head?
  | popLast => .ok m.sort.getLast?
  | popTop => .ok p.top?

/-- The numbers after the call. -/
def record (p : Pool) (m : Multiset UInt64) : Move → Multiset UInt64
  | insert v => v ::ₘ m
  | removeValue v => m.erase v
  | popFirst => without m m.sort.head?
  | popLast => without m m.sort.getLast?
  | popTop => without m p.top?
  | raiseAll shift => m.map (· + shift)

end Move

/-- The calls lead from one pool and its numbers to another, where nothing grows too large. -/
inductive Run : Pool → Multiset UInt64 → List Move → Pool → Multiset UInt64 → Prop where
  | nil {p : Pool} {m : Multiset UInt64} : Run p m [] p m
  | cons {p p' : Pool} {m m' : Multiset UInt64} {mv : Move} {rest : List Move}
      (fits : mv.Fits m)
      (run : Run (mv.perform p).state (mv.record p m) rest p' m') :
      Run p m (mv :: rest) p' m'

theorem answer_of_ok {o : Outcome Pool (Option UInt64)} {a : Option UInt64}
    (h : ∃ p', o = .ok a p' ∧ p'.Keeps m) : o.answer = .ok a ∧ o.state.Keeps m := by
  obtain ⟨p', rfl, hp'⟩ := h
  exact ⟨rfl, hp'⟩

theorem answer_of_done {o : Outcome Pool Unit} (h : ∃ p', o = .ok () p' ∧ p'.Keeps m) :
    let o' : Outcome Pool (Option UInt64) := o.andThen fun () p => .ok none p
    o'.answer = .ok none ∧ o'.state.Keeps m := by
  obtain ⟨p', rfl, hp'⟩ := h
  exact ⟨rfl, hp'⟩

/-- A call answers what it has to, and leaves the numbers that it has to. -/
theorem Keeps.step {mv : Move} (h : p.Keeps m) (hfits : mv.Fits m) :
    (mv.perform p).answer = mv.answer p m ∧ (mv.perform p).state.Keeps (mv.record p m) := by
  cases mv with
  | insert v => exact answer_of_done (h.insert v)
  | removeValue v =>
    obtain ⟨hmem, hnotMem⟩ := h.removeValue v
    rw [Move.perform, Move.answer, Move.record]
    by_cases hv : v ∈ m
    · rw [if_pos hv]
      exact answer_of_done (hmem hv)
    · rw [hnotMem hv, if_neg hv, Multiset.erase_of_notMem hv]
      exact ⟨rfl, h⟩
  | popFirst => exact answer_of_ok h.popFirst
  | popLast => exact answer_of_ok h.popLast
  | popTop => exact answer_of_ok h.popTop
  | raiseAll shift => exact answer_of_done (h.raiseAll hfits)

theorem Run.keeps {moves : List Move} {m' : Multiset UInt64} (h : Run p m moves p' m')
    (hp : p.Keeps m) : p'.Keeps m' := by
  induction h with
  | nil => exact hp
  | cons fits _ ih => exact ih (hp.step fits).2

/-! ## Taking everything out -/

/-- Takes numbers out until there are none, at most `rounds` times. -/
def drain (pop : Pool → Outcome Pool (Option UInt64)) :
    (rounds : Nat) → Pool → Outcome Pool (List UInt64)
  | 0, p => .ok [] p
  | rounds + 1, p =>
    (pop p).andThen fun v p =>
      match v with
      | none => .ok [] p
      | some v => (drain pop rounds p).andThen fun vs p => .ok (v :: vs) p

theorem without_head? (vs : List UInt64) : without vs vs.head? = vs.tail := by
  cases vs with
  | nil => rfl
  | cons v vs =>
    rw [List.head?_cons, without, Option.elim_some, Multiset.coe_erase, List.erase_cons_head,
      List.tail_cons]

/-- Where a call takes out the number that comes first by `R`, the numbers come out by `R`. -/
theorem drain_eq {pop : Pool → Outcome Pool (Option UInt64)} {R : UInt64 → UInt64 → Prop}
    (hpop : ∀ (p : Pool) (vs : List UInt64), p.Keeps vs → vs.Pairwise R →
      ∃ p', pop p = .ok vs.head? p' ∧ p'.Keeps (without vs vs.head?))
    {vs : List UInt64} {rounds : Nat} (h : p.Keeps vs) (hvs : vs.Pairwise R)
    (hrounds : vs.length ≤ rounds) :
    ∃ p', drain pop rounds p = .ok vs p' ∧ p'.Keeps 0 := by
  induction vs generalizing p rounds with
  | nil =>
    cases rounds with
    | zero => exact ⟨p, rfl, h⟩
    | succ rounds =>
      obtain ⟨p', hcall, hp'⟩ := hpop p [] h .nil
      refine ⟨p', ?_, hp'⟩
      rw [drain, hcall]
      rfl
  | cons v vs ih =>
    rw [List.length_cons] at hrounds
    obtain ⟨rounds, rfl⟩ : ∃ k, rounds = k + 1 := ⟨rounds - 1, by omega⟩
    obtain ⟨p₁, hcall, h₁⟩ := hpop p (v :: vs) h hvs
    rw [without_head?] at h₁
    obtain ⟨p', hrest, hp'⟩ := ih h₁ hvs.tail (Nat.le_of_succ_le_succ hrounds)
    refine ⟨p', ?_, hp'⟩
    rw [drain, hcall]
    show (drain pop rounds p₁).andThen _ = _
    rw [hrest]
    rfl

theorem Keeps.drain_popFirst {rounds : Nat} (h : p.Keeps m) (hrounds : m.card ≤ rounds) :
    ∃ p', drain Pool.popFirst rounds p = .ok m.sort p' ∧ p'.Keeps 0 := by
  refine drain_eq (R := (· ≤ ·)) (fun p vs h hvs => ?_) ?_ (m.pairwise_sort _) ?_
  · have hfirst := h.popFirst
    rwa [sort_eq_of_pairwise hvs rfl] at hfirst
  · rwa [Multiset.sort_eq]
  · rwa [Multiset.length_sort]

theorem Keeps.drain_popLast {rounds : Nat} (h : p.Keeps m) (hrounds : m.card ≤ rounds) :
    ∃ p', drain Pool.popLast rounds p = .ok m.sort.reverse p' ∧ p'.Keeps 0 := by
  refine drain_eq (R := fun v w => w ≤ v) (fun p vs h hvs => ?_) ?_ ?_ ?_
  · have hlast := h.popLast
    have hsort : (vs : Multiset UInt64).sort = vs.reverse :=
      sort_eq_of_pairwise (List.pairwise_reverse.mpr hvs) (Multiset.coe_reverse vs)
    rwa [hsort, List.getLast?_reverse] at hlast
  · rwa [Multiset.coe_reverse, Multiset.sort_eq]
  · exact List.pairwise_reverse.mpr (m.pairwise_sort _)
  · rwa [List.length_reverse, Multiset.length_sort]

/-! ## The result -/

/-- Only where there is no number, the first, the last and the top one are none. -/
theorem Keeps.answer_eq_none_iff {mv : Move} (h : p.Keeps m)
    (hmv : mv ∈ [Move.popFirst, .popLast, .popTop]) : mv.answer p m = .ok none ↔ m = 0 := by
  simp only [List.mem_cons, List.not_mem_nil, or_false] at hmv
  rcases hmv with rfl | rfl | rfl <;> rw [Move.answer, Except.ok.injEq]
  · rw [List.head?_eq_none_iff, sort_eq_nil_iff]
  · rw [List.getLast?_eq_none_iff, sort_eq_nil_iff]
  · exact h.shows.top_none

/-- After any run from an empty pool in which nothing grows too large, a pool shows the
numbers that were put in and not taken out, in order, and every further call answers what it
has to and leaves what it has to.  Only a number that is not there is refused, which changes
nothing; the first, the last and the top number are none only where there are no numbers; and
taking out everything gives the numbers in order, from either end. -/
theorem run_refines {p₀ : Pool} {moves : List Move} (hempty : p₀.tree.top = none)
    (h : Run p₀ 0 moves p m) :
    p.Shows m ∧
      (∀ mv : Move, mv.Fits m → (mv.perform p).answer = mv.answer p m ∧
        (mv.perform p).state.Shows (mv.record p m)) ∧
      (∀ v, p.removeValue v = .error (.refused .noEntry) p ↔ v ∉ m) ∧
      (∀ mv ∈ [Move.popFirst, .popLast, .popTop],
        (mv.perform p).answer = .ok none ↔ m = 0) ∧
      ∀ rounds, m.card ≤ rounds →
        (∃ p', drain Pool.popFirst rounds p = .ok m.sort p' ∧ p'.Shows 0) ∧
        ∃ p', drain Pool.popLast rounds p = .ok m.sort.reverse p' ∧ p'.Shows 0 := by
  have hkeeps : p.Keeps m := h.keeps (keeps_of_empty hempty)
  refine ⟨hkeeps.shows, fun mv hfits => ?_, fun v => ⟨fun hcall hv => ?_, ?_⟩, fun mv hmv => ?_,
    fun rounds hrounds => ⟨?_, ?_⟩⟩
  · obtain ⟨hanswer, hleft⟩ := hkeeps.step hfits
    exact ⟨hanswer, hleft.shows⟩
  · obtain ⟨p', hok, -⟩ := (hkeeps.removeValue v).1 hv
    rw [hcall] at hok
    cases hok
  · exact (hkeeps.removeValue v).2
  · have hfits : mv.Fits m := by
      simp only [List.mem_cons, List.not_mem_nil, or_false] at hmv
      rcases hmv with rfl | rfl | rfl <;> trivial
    rw [(hkeeps.step hfits).1, hkeeps.answer_eq_none_iff hmv]
  · obtain ⟨p', hdrain, hp'⟩ := hkeeps.drain_popFirst hrounds
    exact ⟨p', hdrain, hp'.shows⟩
  · obtain ⟨p', hdrain, hp'⟩ := hkeeps.drain_popLast hrounds
    exact ⟨p', hdrain, hp'.shows⟩

/-- Five numbers are put in, two of them equal.  One of those is taken out, a number that is
not there is refused, and the others are raised before the top one is taken out. -/
theorem run_refines_of_equal_numbers :
    ∃ p m, Run {} 0 [.insert 5, .insert 2, .insert 5, .insert 9, .insert 1, .removeValue 5,
        .removeValue 7, .raiseAll 10, .popTop] p m ∧
      m = {11, 12, 19} ∧ p.Shows m ∧
      ∃ p', drain Pool.popFirst 3 p = .ok [11, 12, 19] p' ∧ p'.Shows 0 := by
  have hrun : ∃ p m, Run {} 0 [.insert 5, .insert 2, .insert 5, .insert 9, .insert 1,
      .removeValue 5, .removeValue 7, .raiseAll 10, .popTop] p m ∧ m = {11, 12, 19} := by
    refine ⟨_, _, .cons trivial (.cons trivial (.cons trivial (.cons trivial (.cons trivial
      (.cons trivial (.cons trivial (.cons ?_ (.cons trivial .nil)))))))), ?_⟩
    · -- The numbers are looked through one by one; the type has too many to try all.
      refine @of_decide_eq_true _ Multiset.decidableForallMultiset ?_
      decide +kernel
    · decide +kernel
  obtain ⟨p, m, h, rfl⟩ := hrun
  obtain ⟨hshows, -, -, -, hdrain⟩ := run_refines rfl h
  have hsort : ({11, 12, 19} : Multiset UInt64).sort = [11, 12, 19] :=
    sort_eq_of_pairwise (by decide) rfl
  obtain ⟨⟨p', hfirst, hp'⟩, -⟩ := hdrain 3 (by decide)
  rw [hsort] at hfirst
  exact ⟨p, _, h, rfl, hshows, p', hfirst, hp'⟩

end Pool

end RedBlack
