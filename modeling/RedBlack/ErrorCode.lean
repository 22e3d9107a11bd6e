/-!
# Error codes and statuses

An `ErrorCode` is a reason to refuse a call.  Where results are plain numbers, a
status stands for the result: zero for success, and the negated number of the
code for a refusal.  `status` writes a result as a number and `ofStatus` reads it
back; a number that no result is written as reads as an invalid argument.
-/

namespace RedBlack

/-- A reason to refuse a call. -/
inductive ErrorCode where
  | notPermitted
  | noEntry
  | badAddress
  | invalidArgument
  deriving DecidableEq, Repr

namespace ErrorCode

/-- All codes, by number. -/
def all : List ErrorCode := [notPermitted, noEntry, badAddress, invalidArgument]

/-- The number of a code. -/
def number : ErrorCode → Nat
  | notPermitted => 1
  | noEntry => 2
  | badAddress => 14
  | invalidArgument => 22

/-- The symbol of a code. -/
def symbol : ErrorCode → String
  | notPermitted => "EPERM"
  | noEntry => "ENOENT"
  | badAddress => "EFAULT"
  | invalidArgument => "EINVAL"

/-- The code in words. -/
def message : ErrorCode → String
  | notPermitted => "operation not permitted"
  | noEntry => "no such entry"
  | badAddress => "bad address"
  | invalidArgument => "invalid argument"

/-- The code with a symbol. -/
def ofSymbol? (s : String) : Option ErrorCode := all.find? fun e => e.symbol = s

/-- The status of a refusal. -/
def negated (e : ErrorCode) : Int := -e.number

end ErrorCode

/-- The status of a result. -/
def status {α : Type} : Except ErrorCode α → Int
  | .ok _ => 0
  | .error e => e.negated

/-- The result that a status stands for. -/
def ofStatus (s : Int) : Except ErrorCode Unit :=
  if s = 0 then .ok ()
  else .error ((ErrorCode.all.find? fun e => e.negated = s).getD .invalidArgument)

/-- Reading back the status of a result gives that result. -/
theorem ofStatus_status (r : Except ErrorCode Unit) : ofStatus (status r) = r := by
  match r with
  | .ok () => rfl
  | .error e => cases e <;> rfl

end RedBlack
