import RedBlack.ErrorCode
import RedBlack.Rounds
import RedBlack.Violation

/-!
# Outcomes of calls that change something

A call that changes a state of type `σ` and answers an `α` has an
`Outcome σ α`.  It carries a state also when the call fails, because a call that
fails after a part of its work leaves that part done.
-/

namespace RedBlack

/-- Why a call failed. -/
inductive Failure where
  /-- The call was refused before it did anything. -/
  | refused (code : ErrorCode)
  /-- The call did its work, and the check that closes it found a broken rule. -/
  | broken (violation : Violation)
  /-- A sum is too large for its type. -/
  | overflow
  /-- Following links came to no answer. -/
  | lost (fault : Fault)
  deriving DecidableEq, Repr

/-- The failure of a call whose closing check ends with `violation`. -/
def Failure.ofViolation : Violation → Failure
  | .tooDeep _ => .overflow
  | violation => .broken violation

theorem Failure.ofViolation_ne_refused (violation : Violation) (code : ErrorCode) :
    ofViolation violation ≠ .refused code := by
  cases violation <;> simp [ofViolation]

/-- The failure in words. -/
def Failure.message (name : NodeId → String) : Failure → String
  | refused code => code.message
  | broken violation => s!"red-black invariant broken: Err({violation.literal name})"
  | overflow => overflowMessage
  | lost .absentLink => "a link that is needed is absent"
  | lost .endless => "links run in a circle"

/-- What a call comes to: an answer or a failure, and the state it leaves. -/
abbrev Outcome (σ α : Type) := EStateM.Result Failure σ α

namespace Outcome

variable {σ τ α β : Type}

/-- The state a call leaves. -/
def state : Outcome σ α → σ
  | .ok _ s => s
  | .error _ s => s

/-- The answer or the failure. -/
def answer : Outcome σ α → Except Failure α
  | .ok a _ => .ok a
  | .error e _ => .error e

/-- The same outcome over a state that contains the first one. -/
def inside (o : Outcome σ α) (f : σ → τ) : Outcome τ α :=
  match o with
  | .ok a s => .ok a (f s)
  | .error e s => .error e (f s)

/-- Goes on with another call, unless the first one failed. -/
def andThen (o : Outcome σ α) (f : α → σ → Outcome σ β) : Outcome σ β :=
  match o with
  | .ok a s => f a s
  | .error e s => .error e s

/-- A question asked along the way.  If it finds no answer the state is as before. -/
def ask (s : σ) : Except Fault α → Outcome σ α
  | .ok a => .ok a s
  | .error fault => .error (.lost fault) s

@[simp] theorem state_inside (o : Outcome σ α) (f : σ → τ) : (o.inside f).state = f o.state := by
  cases o <;> rfl

@[simp] theorem answer_inside (o : Outcome σ α) (f : σ → τ) : (o.inside f).answer = o.answer := by
  cases o <;> rfl

end Outcome

end RedBlack
