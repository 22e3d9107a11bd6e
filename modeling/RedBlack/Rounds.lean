/-!
# Bounded rounds

Following links is a loop whose length nobody knows beforehand: links may run
in a circle.  A loop is therefore a step that says whether it is done, and
`loop` takes it through a bounded number of rounds.  A statement about one round
is a statement about the step; a statement about the loop is an induction over
the rounds.
-/

namespace RedBlack

/-- Why following links came to no answer. -/
inductive Fault where
  /-- A step needed a node where there is none. -/
  | absentLink
  /-- The rounds ran out before the loop was done. -/
  | endless
  deriving DecidableEq, Repr

/-- What one round of a loop comes to. -/
inductive Round (σ β : Type) where
  /-- The loop ends with this answer. -/
  | done (answer : β)
  /-- The loop goes on from this state. -/
  | again (state : σ)
  deriving Repr

variable {σ β : Type}

/-- Runs a loop for at most `rounds` rounds. -/
def loop (step : σ → Except Fault (Round σ β)) : (rounds : Nat) → σ → Except Fault β
  | 0, _ => .error .endless
  | rounds + 1, s =>
    match step s with
    | .error fault => .error fault
    | .ok (.done answer) => .ok answer
    | .ok (.again s) => loop step rounds s

/-- The elements a walk meets from `start` on, where `next` answers the element
after another and at most `rounds` elements are met. -/
def collect (next : σ → Except Fault (Option σ)) :
    (rounds : Nat) → (start : Option σ) → Except Fault (List σ)
  | _, none => .ok []
  | 0, some _ => .error .endless
  | rounds + 1, some s => do
    let rest ← collect next rounds (← next s)
    return s :: rest

/-! ## One round at a time -/

theorem loop_of_done {step : σ → Except Fault (Round σ β)} {s : σ} {answer : β}
    (h : step s = .ok (.done answer)) (rounds : Nat) :
    loop step (rounds + 1) s = .ok answer := by
  simp [loop, h]

theorem loop_of_again {step : σ → Except Fault (Round σ β)} {s s' : σ}
    (h : step s = .ok (.again s')) (rounds : Nat) :
    loop step (rounds + 1) s = loop step rounds s' := by
  simp [loop, h]

/-- More rounds do not change an answer. -/
theorem loop_le {step : σ → Except Fault (Round σ β)} {m n : Nat} {s : σ} {answer : β}
    (h : loop step m s = .ok answer) (hmn : m ≤ n) : loop step n s = .ok answer := by
  induction m generalizing n s with
  | zero => simp [loop] at h
  | succ m ih =>
    obtain ⟨n, rfl⟩ : ∃ k, n = k + 1 := ⟨n - 1, by omega⟩
    rw [loop] at h ⊢
    split at h
    · exact absurd h (by simp)
    · exact h
    · exact ih h (by omega)

end RedBlack
