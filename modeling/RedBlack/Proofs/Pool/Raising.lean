import Mathlib.Data.List.TakeWhile
import RedBlack.Proofs.Pool.Elements
import RedBlack.Proofs.Tree.Renaming

/-!
# Raising all numbers of a pool

A call that raises all numbers takes the elements of the tree first, and then puts a new element
in the place of each of them, one after the other.  A number that would grow too large ends the
call there.  So the call can leave a tree in which new elements stand before old ones, and what
it leaves is the same tree with other elements in it, whatever the numbers are.

* `map_valueOf_append` says which numbers the elements have when new ones were created.
* `raise_rename` is one element and `raiseEach_rename` several ones that stand next to each
  other: the shape is renamed, and no other link, colour or number changes.
* `Raised k` is what is left when `k` elements were raised.
* `raiseAll_eq` is the call, up to the first number that grows too large, and `Lists.raiseAll`
  says what becomes of the numbers alone.
* `raiseAll_renames` is the result, with the two ways in which the call ends.
-/

namespace RedBlack.Pool

open Shape

variable {p p' : Pool} {s : Shape} {n : NodeId} {v shift : UInt64}

/-! ## Numbers -/

/-- The number can be raised without growing too large. -/
def Fits (shift v : UInt64) : Prop := v.toNat + shift.toNat < UInt64.size

instance (shift v : UInt64) : Decidable (Fits shift v) := inferInstanceAs (Decidable (_ < _))

theorem toNat_add_of_fits (h : Fits shift v) : (v + shift).toNat = v.toNat + shift.toNat := by
  rw [UInt64.toNat_add, Nat.mod_eq_of_lt h]

theorem fits_of_mem_takeWhile {vs : List UInt64} (hv : v ∈ vs.takeWhile (Fits shift ·)) :
    Fits shift v :=
  of_decide_eq_true (List.mem_takeWhile_imp (p := (Fits shift ·)) hv)

/-- New elements have the numbers they were made for, and those before them keep theirs. -/
theorem map_valueOf_append {ws : List UInt64}
    (h : p'.entries.values = p.entries.values ++ ws.toArray) :
    (∀ n < p.entries.values.size, p'.valueOf n = p.valueOf n) ∧
      (List.range' p.entries.values.size ws.length).map p'.valueOf = ws := by
  constructor
  · intro n hn
    rw [valueOf, valueOf, Entries.value?, Entries.value?, h, Array.getElem?_append_left hn]
  · refine List.ext_getElem (by simp) fun i _ hi => ?_
    have hnew : p'.entries.values[p.entries.values.size + i]? = some ws[i] := by
      rw [h, Array.getElem?_append_right (Nat.le_add_right ..), Nat.add_sub_cancel_left]
      simp [hi]
    simp [valueOf, Entries.value?, hnew]

/-! ## Element by element -/

/-- A new element takes the place of one whose number is raised. -/
theorem raise_rename (h : p.tree.Spells s) (hs : s.IsRedBlack)
    (hknown : ∀ n ∈ s.toList, n < p.entries.values.size) (hn : n ∈ s.toList)
    (hfits : Fits shift (p.valueOf n)) :
    ∃ p', p.raise shift n = .ok () p' ∧
      p'.tree.Spells (s.rename (Function.update id n p.entries.values.size)) ∧
      p'.entries.values = p.entries.values.push (p.valueOf n + shift) := by
  have hcreate : (p.tree.reset p.entries.values.size).Spells s :=
    ⟨h.top, h.hangs.congr fun i hi =>
      Tree.record_setRecord_of_ne (Nat.ne_of_lt (hknown i hi)), h.nodup⟩
  obtain ⟨t', hreplace, ht'⟩ :=
    hcreate.replace_rename hs hn fun hfresh => Nat.lt_irrefl _ (hknown _ hfresh)
  have hedit : (p.entries.create (p.valueOf n + shift)).2.replace (some n)
      (some p.entries.values.size) =
        .ok () ⟨t', p.entries.values.push (p.valueOf n + shift)⟩ := Entries.edit_ok hreplace
  rw [Fits] at hfits
  refine ⟨⟨⟨t', _⟩⟩, ?_, ht'.spells, rfl⟩
  simp only [raise, if_pos hfits]
  exact congrArg (Outcome.inside · Pool.mk) hedit

theorem raise_of_not_fits (h : ¬Fits shift (p.valueOf n)) :
    p.raise shift n = .error .overflow p := by
  rw [Fits] at h
  simp only [raise, if_neg h]

theorem raiseEach_append (xs ys : List NodeId) :
    p.raiseEach shift (xs ++ ys) =
      (p.raiseEach shift xs).andThen fun () p => p.raiseEach shift ys := by
  induction xs generalizing p with
  | nil => rfl
  | cons n xs ih =>
    rw [List.cons_append, raiseEach, raiseEach]
    cases p.raise shift n with
    | ok _ p' => exact ih
    | error e p' => rfl

/-- Elements that stand next to each other are raised one after the other.  The induction is on
them, for any tree: what was raised joins what stands before. -/
theorem raiseEach_rename {done now rest : List NodeId} (h : p.tree.Spells s) (hs : s.IsRedBlack)
    (hlist : s.toList = done ++ now ++ rest)
    (hknown : ∀ n ∈ s.toList, n < p.entries.values.size)
    (hfits : ∀ n ∈ now, Fits shift (p.valueOf n)) :
    ∃ p' f, p.raiseEach shift now = .ok () p' ∧ p'.tree.Spells (s.rename f) ∧
      (s.rename f).toList = done ++ List.range' p.entries.values.size now.length ++ rest ∧
      p'.entries.values = p.entries.values ++ ((now.map p.valueOf).map (· + shift)).toArray := by
  induction now generalizing p s done with
  | nil => exact ⟨p, id, rfl, by rwa [rename_id], by simpa using hlist, by simp⟩
  | cons n now ih =>
    have hsplit : s.toList = done ++ n :: (now ++ rest) := by
      rw [hlist, List.append_assoc, List.cons_append]
    have hn : n ∈ s.toList := by simp [hsplit]
    obtain ⟨p₁, hraise, h₁, hpush⟩ :=
      raise_rename h hs hknown hn (hfits n List.mem_cons_self)
    obtain ⟨-, hothers⟩ := valueOf_of_push hpush
    have hvalues : now.map p₁.valueOf = now.map p.valueOf :=
      List.map_congr_left fun m hm => hothers m (hknown m (by simp [hsplit, hm]))
    have hsize : p₁.entries.values.size = p.entries.values.size + 1 := by
      rw [hpush, Array.size_push]
    have hlist₁ : (s.rename (Function.update id n p.entries.values.size)).toList =
        done ++ [p.entries.values.size] ++ now ++ rest := by
      have hnodup := h.nodup
      rw [hsplit] at hnodup
      rw [toList_rename, hsplit, map_update_middle hnodup]
      simp
    have hknown₁ : ∀ m ∈ (s.rename (Function.update id n p.entries.values.size)).toList,
        m < p₁.entries.values.size := by
      intro m hm
      rw [hsize]
      rw [toList_rename, mem_map_update] at hm
      rcases hm with ⟨-, rfl⟩ | ⟨hm, -⟩
      · exact Nat.lt_succ_self _
      · exact Nat.lt_succ_of_lt (hknown m hm)
    have hfits₁ : ∀ m ∈ now, Fits shift (p₁.valueOf m) := by
      intro m hm
      rw [hothers m (hknown m (by simp [hsplit, hm]))]
      exact hfits m (List.mem_cons_of_mem n hm)
    obtain ⟨p', f, heach, h', hnodes, happend⟩ :=
      ih h₁ (isRedBlack_rename.mpr hs) hlist₁ hknown₁ hfits₁
    rw [rename_rename] at h' hnodes
    refine ⟨p', _, ?_, h', ?_, ?_⟩
    · rw [raiseEach, hraise]
      exact heach
    · rw [hnodes, hsize, List.length_cons, List.range'_succ]
      simp
    · rw [happend, hpush, hvalues]
      simp

/-! ## The whole call -/

/-- What raising leaves of a pool with the shape `s`: its first `k` elements are raised.  In
their places are new ones, the links and the colours are as before, and all others are where
they were. -/
structure Raised (p : Pool) (s : Shape) (shift : UInt64) (k : Nat) (p' : Pool) (s' : Shape) :
    Prop where
  spells : p'.tree.Spells s'
  shape : ∃ f, s' = s.rename f
  rules : s'.IsRedBlack
  /-- The new elements have numbers of their own, from the first free one on. -/
  nodes : s'.toList = List.range' p.entries.values.size k ++ s.toList.drop k
  elements : p'.entries.values =
    p.entries.values ++ (((s.toList.map p.valueOf).take k).map (· + shift)).toArray
  toList : p'.toList = .ok
    (((s.toList.map p.valueOf).take k).map (· + shift) ++ (s.toList.map p.valueOf).drop k)

/-- The first `k` elements can be raised when their numbers fit. -/
theorem exists_raised {k : Nat} (h : p.tree.Spells s) (hs : s.IsRedBlack)
    (hknown : ∀ n ∈ s.toList, n < p.entries.values.size) (hk : k ≤ s.toList.length)
    (hfits : ∀ v ∈ (s.toList.map p.valueOf).take k, Fits shift v) :
    ∃ p' s', p.raiseEach shift (s.toList.take k) = .ok () p' ∧ p.Raised s shift k p' s' := by
  have hlist : s.toList = [] ++ s.toList.take k ++ s.toList.drop k := by simp
  have hnow : ∀ n ∈ s.toList.take k, Fits shift (p.valueOf n) := fun n hn => by
    refine hfits _ ?_
    rw [← List.map_take]
    exact List.mem_map_of_mem hn
  obtain ⟨p', f, heach, h', hnodes, happend⟩ := raiseEach_rename h hs hlist hknown hnow
  rw [List.length_take, Nat.min_eq_left hk, List.nil_append] at hnodes
  rw [List.map_take] at happend
  have hrules : (s.rename f).IsRedBlack := isRedBlack_rename.mpr hs
  refine ⟨p', s.rename f, heach, h', ⟨f, rfl⟩, hrules, hnodes, happend, ?_⟩
  obtain ⟨hold, hnew⟩ := map_valueOf_append happend
  have hlength : (((s.toList.map p.valueOf).take k).map (· + shift)).length = k := by
    simp [hk]
  rw [hlength] at hnew
  rw [toList_eq ⟨_, h', hrules, rfl⟩, hnodes, List.map_append, hnew, ← List.map_drop]
  refine congrArg (fun ws => Except.ok (_ ++ ws)) (List.map_congr_left fun n hn => ?_)
  exact hold n (hknown n (List.mem_of_mem_drop hn))

/-- All numbers are raised up to the first one that would grow too large. -/
theorem raiseAll_eq {k : Nat} (h : p.tree.Spells s) (hs : s.IsRedBlack)
    (hknown : ∀ n ∈ s.toList, n < p.entries.values.size) (hk : k ≤ s.toList.length)
    (hfits : ∀ v ∈ (s.toList.map p.valueOf).take k, Fits shift v)
    (hstop : ∀ v, (s.toList.map p.valueOf)[k]? = some v → ¬Fits shift v) :
    ∃ p' s', p.raiseAll shift = (if k = s.toList.length then .ok () p' else .error .overflow p') ∧
      p.Raised s shift k p' s' := by
  obtain ⟨p', s', heach, hraised⟩ := exists_raised h hs hknown hk hfits
  refine ⟨p', s', ?_, hraised⟩
  have hholds : p.tree.Holds s.toList := ⟨s, h, hs, rfl⟩
  have hcall : p.raiseAll shift = p.raiseEach shift s.toList := by
    rw [raiseAll, hholds.sweep]
    rfl
  rw [hcall, ← List.take_append_drop k s.toList, raiseEach_append, heach,
    List.take_append_drop k s.toList]
  by_cases hall : k = s.toList.length
  · rw [if_pos hall, hall, List.drop_length]
    rfl
  · have hlt : k < s.toList.length := Nat.lt_of_le_of_ne hk hall
    have hn := List.getElem_mem hlt
    obtain ⟨hold, -⟩ := map_valueOf_append hraised.elements
    rw [if_neg hall, List.drop_eq_getElem_cons hlt]
    show (p'.raise shift _).andThen _ = _
    rw [raise_of_not_fits]
    · rfl
    · rw [hold _ (hknown _ hn)]
      exact hstop _ (by rw [List.getElem?_map, List.getElem?_eq_getElem hlt]; rfl)

theorem Raised.lists {k : Nat} {s' : Shape} (h : p.Raised s shift k p' s')
    (hknown : ∀ n ∈ s.toList, n < p.entries.values.size) (hk : k ≤ s.toList.length) :
    p'.Lists s'.toList where
  holds := ⟨s', h.spells, h.rules, rfl⟩
  known n hn := by
    have hsize : p'.entries.values.size = p.entries.values.size + k := by simp [h.elements, hk]
    rw [hsize]
    rw [h.nodes, List.mem_append, List.mem_range'_1] at hn
    rcases hn with ⟨-, hn⟩ | hn
    · exact hn
    · exact Nat.lt_add_right k (hknown n (List.mem_of_mem_drop hn))

/-- On the numbers alone: those before the first one that would grow too large are raised. -/
theorem Lists.raiseAll {xs : List NodeId} (h : p.Lists xs) (shift : UInt64) :
    ∃ p' ys, (p.raiseAll shift).state = p' ∧
      ((∀ v ∈ xs.map p.valueOf, Fits shift v) → p.raiseAll shift = .ok () p') ∧ p'.Lists ys ∧
      ys.map p'.valueOf = ((xs.map p.valueOf).takeWhile (Fits shift ·)).map (· + shift) ++
        (xs.map p.valueOf).dropWhile (Fits shift ·) := by
  obtain ⟨⟨s, hs, hrb, rfl⟩, hknown⟩ := h
  generalize hvs : s.toList.map p.valueOf = vs
  have hfits : ∀ v ∈ vs.takeWhile (Fits shift ·), Fits shift v := fun _ => fits_of_mem_takeWhile
  have hstop : ∀ v, (vs.dropWhile (Fits shift ·)).head? = some v → ¬Fits shift v := by
    intro v hv
    have hnot := List.head?_dropWhile_not (Fits shift ·) vs
    rw [hv] at hnot
    exact of_decide_eq_false hnot
  have hsplit := List.takeWhile_append_dropWhile (p := (Fits shift ·)) (l := vs)
  generalize vs.takeWhile (Fits shift ·) = now at hfits hsplit ⊢
  generalize vs.dropWhile (Fits shift ·) = rest at hstop hsplit ⊢
  subst hsplit
  have hlength : now.length + rest.length = s.toList.length := by
    rw [← List.length_append, ← hvs, List.length_map]
  have hk : now.length ≤ s.toList.length := by omega
  have hnow : ∀ v ∈ (s.toList.map p.valueOf).take now.length, Fits shift v := by
    rwa [hvs, List.take_left' rfl]
  have hnext : ∀ v, (s.toList.map p.valueOf)[now.length]? = some v → ¬Fits shift v := by
    rwa [hvs, List.getElem?_append_right (Nat.le_refl _), Nat.sub_self, ← List.head?_eq_getElem?]
  obtain ⟨p', s', hcall, hraised⟩ := raiseAll_eq hs hrb hknown hk hnow hnext
  have hlists := hraised.lists hknown hk
  refine ⟨p', s'.toList, ?_, fun hall => ?_, hlists, ?_⟩
  · rw [hcall]
    split <;> rfl
  · have hnil : rest = [] := by
      cases rest with
      | nil => rfl
      | cons w rest => exact absurd (hall w (by simp)) (hstop w rfl)
    rw [hcall, if_pos]
    rw [← hlength, hnil, List.length_nil, Nat.add_zero]
  · have htoList := (toList_eq hlists.holds).symm.trans hraised.toList
    rw [hvs, List.take_left' rfl, List.drop_left' rfl] at htoList
    exact Except.ok.inj htoList

/-- Raising all numbers of a pool puts new elements in the places of the old ones, whether the
numbers are in order or not.  If no number grows too large, all of them are replaced.  Otherwise
the call fails at the first number that would, and exactly the elements before it are replaced.
In both cases the tree keeps its shape and its colours, and all other elements their places. -/
theorem raiseAll_renames (h : p.tree.Spells s) (hs : s.IsRedBlack)
    (hknown : ∀ n ∈ s.toList, n < p.entries.values.size) (shift : UInt64) :
    p.toList = .ok (s.toList.map p.valueOf) ∧
    ((∀ v ∈ s.toList.map p.valueOf, Fits shift v) →
      ∃ p' s', p.raiseAll shift = .ok () p' ∧ p.Raised s shift s.toList.length p' s') ∧
    ∀ k v, (s.toList.map p.valueOf)[k]? = some v → ¬Fits shift v →
      (∀ w ∈ (s.toList.map p.valueOf).take k, Fits shift w) →
        ∃ p' s', p.raiseAll shift = .error .overflow p' ∧ p.Raised s shift k p' s' := by
  refine ⟨toList_eq ⟨s, h, hs, rfl⟩, fun hall => ?_, fun k v hv hstop hfits => ?_⟩
  · obtain ⟨p', s', hcall, hraised⟩ := raiseAll_eq h hs hknown (Nat.le_refl _)
      (fun w hw => hall w (List.mem_of_mem_take hw)) fun w hw => by simp at hw
    exact ⟨p', s', by rw [hcall, if_pos rfl], hraised⟩
  · have hlt : k < s.toList.length := by
      obtain ⟨hk, -⟩ := List.getElem?_eq_some_iff.mp hv
      simpa using hk
    have hnext : ∀ w, (s.toList.map p.valueOf)[k]? = some w → ¬Fits shift w := fun w hw => by
      rwa [← Option.some.inj (hv.symm.trans hw)]
    obtain ⟨p', s', hcall, hraised⟩ := raiseAll_eq h hs hknown (Nat.le_of_lt hlt) hfits hnext
    exact ⟨p', s', by rw [hcall, if_neg (Nat.ne_of_lt hlt)], hraised⟩

/-- The numbers are not in order, and the last one is the largest that there is. -/
theorem raiseAll_renames_of_unsorted :
    let s : Shape := .node .black (.node .red .leaf 1 .leaf) 0 (.node .red .leaf 2 .leaf)
    let p : Pool := ⟨Tree.build {} s, #[2, 9, 18446744073709551615]⟩
    p.tree.Spells s ∧ s.IsRedBlack ∧ (∀ n ∈ s.toList, n < p.entries.values.size) ∧
      p.toList = .ok [9, 2, 18446744073709551615] ∧
      (∃ p' s', p.raiseAll 0 = .ok () p' ∧ p.Raised s 0 3 p' s' ∧ s'.toList = [3, 4, 5]) ∧
      ∃ p' s', p.raiseAll 3 = .error .overflow p' ∧ p.Raised s 3 2 p' s' ∧
        s'.toList = [3, 4, 2] ∧ p'.toList = .ok [12, 5, 18446744073709551615] := by
  intro s p
  have h : p.tree.Spells s := Tree.spells_build {} (by decide)
  have hs : s.IsRedBlack := by decide
  have hknown : ∀ n ∈ s.toList, n < p.entries.values.size := by decide
  -- The numbers are looked through one by one; the type has too many to try all.
  have hall : ∀ v ∈ s.toList.map p.valueOf, Fits 0 v :=
    @of_decide_eq_true _ (List.decidableBAll _ _) (by decide +kernel)
  have hfirst : ∀ v ∈ (s.toList.map p.valueOf).take 2, Fits 3 v :=
    @of_decide_eq_true _ (List.decidableBAll _ _) (by decide +kernel)
  obtain ⟨hlist, hok, -⟩ := raiseAll_renames h hs hknown 0
  obtain ⟨p₀, s₀, hok, hraised₀⟩ := hok hall
  obtain ⟨-, -, hstop⟩ := raiseAll_renames h hs hknown 3
  obtain ⟨p₃, s₃, herror, hraised₃⟩ :=
    hstop 2 18446744073709551615 (by decide +kernel) (by decide +kernel) hfirst
  exact ⟨h, hs, hknown, hlist, ⟨p₀, s₀, hok, hraised₀, hraised₀.nodes⟩,
    p₃, s₃, herror, hraised₃, hraised₃.nodes, hraised₃.toList⟩

end RedBlack.Pool
