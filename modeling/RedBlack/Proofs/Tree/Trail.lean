import RedBlack.Proofs.Tree.Around
import RedBlack.Shape.Rules

/-!
# The nodes that a search looks at

A search does one round at each node that it comes to, and asks its comparison at that node
only.  So what it looks at says how long it takes, and what it looks at and what it answers
are one induction over the tree.

* `trail` lists the states of a loop, and `Tree.passed` the nodes that a search from the top
  looks at.
* `Visits` is a loop with its states and its answer, without a number of rounds.
* `Spells.length_passed_le` bounds the nodes by the height, for any search that goes from each
  node to a child of it (`GoesDown`), so that no such search runs out of rounds
  (`Spells.search_eq`).
-/

namespace RedBlack

/-! ## The states of a loop -/

/-- The states of a loop, from the first one on. -/
def trail {σ β : Type} (step : σ → Except Fault (Round σ β)) : (rounds : Nat) → σ → List σ
  | 0, _ => []
  | rounds + 1, s =>
    s :: match step s with
      | .ok (.again s') => trail step rounds s'
      | _ => []

/-- A round with its state and its answer translated. -/
def Round.map {σ σ' β β' : Type} (f : σ → σ') (g : β → β') : Round σ β → Round σ' β'
  | done answer => .done (g answer)
  | again state => .again (f state)

section Translated

variable {σ σ' β β' : Type} {step : σ → Except Fault (Round σ β)}
  {step' : σ' → Except Fault (Round σ' β')} {f : σ → σ'} {g : β → β'}

/-- A loop whose rounds are translated rounds comes to the translated answer. -/
theorem loop_map (h : ∀ s, step' (f s) = (step s).map (Round.map f g)) (rounds : Nat) (s : σ) :
    loop step' rounds (f s) = (loop step rounds s).map g := by
  induction rounds generalizing s with
  | zero => rfl
  | succ rounds ih =>
    rw [loop, loop, h]
    cases step s with
    | error fault => rfl
    | ok round =>
      cases round with
      | done answer => rfl
      | again s => exact ih s

/-- And it comes through the translated states. -/
theorem trail_map (h : ∀ s, step' (f s) = (step s).map (Round.map f g)) (rounds : Nat) (s : σ) :
    trail step' rounds (f s) = (trail step rounds s).map f := by
  induction rounds generalizing s with
  | zero => rfl
  | succ rounds ih =>
    rw [trail, trail, h, List.map_cons]
    cases step s with
    | error fault => rfl
    | ok round =>
      cases round with
      | done answer => rfl
      | again s => exact congrArg (f _ :: ·) (ih s)

/-- What every round preserves holds of all states of a loop. -/
theorem forall_mem_trail {P : σ → Prop}
    (hstep : ∀ s s', P s → step s = .ok (.again s') → P s') {s : σ} (hs : P s) (rounds : Nat) :
    ∀ x ∈ trail step rounds s, P x := by
  induction rounds generalizing s with
  | zero =>
    intro x hx
    cases hx
  | succ rounds ih =>
    intro x hx
    rw [trail, List.mem_cons] at hx
    rcases hx with rfl | hx
    · exact hs
    · split at hx
      · next s' hround => exact ih (hstep s s' hs hround) x hx
      · cases hx

end Translated

section Visits

variable {σ β : Type} {step : σ → Except Fault (Round σ β)} {s : σ} {xs : List σ} {b : β}

/-- From the state `s` on, the loop comes through the states `xs` and then answers `b`. -/
inductive Visits (step : σ → Except Fault (Round σ β)) : (s : σ) → (xs : List σ) → β → Prop where
  | done {s : σ} {b : β} (h : step s = .ok (.done b)) : Visits step s [s] b
  | again {s s' : σ} {xs : List σ} {b : β} (h : step s = .ok (.again s'))
      (hrest : Visits step s' xs b) : Visits step s (s :: xs) b

/-- One round for each state is enough. -/
theorem Visits.loop_eq (h : Visits step s xs b) : loop step xs.length s = .ok b := by
  induction h with
  | done h => exact loop_of_done h 0
  | again h _ ih => exact (loop_of_again h _).trans ih

theorem Visits.trail_eq (h : Visits step s xs b) {rounds : Nat} (hr : xs.length ≤ rounds) :
    trail step rounds s = xs := by
  induction h generalizing rounds with
  | done h =>
    cases rounds with
    | zero => exact absurd hr (Nat.not_succ_le_zero _)
    | succ rounds => rw [trail, h]
  | again h _ ih =>
    cases rounds with
    | zero => exact absurd hr (Nat.not_succ_le_zero _)
    | succ rounds => simp only [trail, h, ih (Nat.le_of_succ_le_succ hr)]

end Visits

/-! ## Searches in a tree -/

theorem Shape.height_le_size (s : Shape) : s.height ≤ s.toList.length := by
  induction s with
  | leaf => exact Nat.le_refl _
  | node c l n r ihl ihr =>
    rw [height, toList, List.length_append, List.length_cons]
    omega

namespace Tree

open Shape

variable {t : Tree} {s : Shape} {β : Type} {step : NodeId → Except Fault (Round NodeId β)}

/-- The nodes that a search from the top looks at, one in each round. -/
def passed (t : Tree) (step : NodeId → Except Fault (Round NodeId β)) : List NodeId :=
  match t.top with
  | none => []
  | some n => trail step t.bound n

/-- Every round leads to a child. -/
def GoesDown (t : Tree) (step : NodeId → Except Fault (Round NodeId β)) : Prop :=
  ∀ n m, step n = .ok (.again m) → ∃ d, t.child n d = some m

/-- A search that goes down looks at one node of each level. -/
theorem length_trail_le {q : Option NodeId} {n : NodeId} (hstep : t.GoesDown step)
    (hs : s.Hangs t.store q) (hn : s.top = some n) (rounds : Nat) :
    (trail step rounds n).length ≤ s.height := by
  induction s generalizing q n rounds with
  | leaf => cases hn
  | node c l m r ihl ihr =>
    cases hn
    obtain ⟨⟨-, -, hleft, hright⟩, hl, hr⟩ := (hangs_branch (d := .left)).mp hs
    cases rounds with
    | zero => exact Nat.zero_le _
    | succ rounds =>
      rw [trail, List.length_cons, height]
      split
      · next k hk =>
        obtain ⟨d, hd⟩ := hstep m k hk
        cases d with
        | left =>
          have := ihl hl (hleft.symm.trans hd) rounds
          omega
        | right =>
          have := ihr hr (hright.symm.trans hd) rounds
          omega
      · rw [List.length_nil]
        omega

theorem Spells.length_passed_le (h : t.Spells s) (hstep : t.GoesDown step) :
    (t.passed step).length ≤ s.height := by
  rw [passed, h.top]
  cases hn : s.top with
  | none => exact Nat.zero_le _
  | some n => exact length_trail_le hstep h.hangs hn _

/-- A search that goes down comes to its answer. -/
theorem Spells.search_eq {n : NodeId} {xs : List NodeId} {b : β} (h : t.Spells s)
    (hstep : t.GoesDown step) (hn : s.top = some n) (hvisits : Visits step n xs b) :
    loop step t.bound n = .ok b ∧ t.passed step = xs := by
  have hlength := length_trail_le hstep h.hangs hn xs.length
  rw [hvisits.trail_eq (Nat.le_refl _)] at hlength
  have hbound : xs.length ≤ t.bound :=
    Nat.le_trans hlength (Nat.le_trans s.height_le_size h.length_le_bound)
  rw [passed, h.top, hn]
  exact ⟨loop_le hvisits.loop_eq hbound, hvisits.trail_eq hbound⟩

end Tree

end RedBlack
