import TreePass.Rewrite

/-!
# Memoised outcomes

A memo holds the outcomes of the positions of a chain that were computed so
far. Position 0 is the empty start of every chain and always known. To reach a
position, the memo goes back to the nearest known one and applies the steps
from there on, one position at a time; each outcome is kept at once, so that
what was reached before a fault need not be computed again.
-/

namespace TreePass

def Outcome.start : Outcome := { forest := .empty, tally := .zero }

/-- The outcomes known so far, by position. -/
structure Memo where
  outcomes : List (Nat × Outcome)

namespace Memo

def fresh : Memo := ⟨[(0, .start)]⟩

/-- The outcome known for a position. -/
def get? (memo : Memo) (position : Nat) : Option Outcome :=
  Keyed.get? position memo.outcomes

/-- Whether an outcome is known for a position. -/
def knows (memo : Memo) (position : Nat) : Bool :=
  (memo.get? position).isSome

/-- The number of known outcomes. -/
def size (memo : Memo) : Nat := memo.outcomes.length

def store (memo : Memo) (position : Nat) (outcome : Outcome) : Memo :=
  ⟨Keyed.put position outcome memo.outcomes⟩

/-- The greatest known position up to the given one, with its outcome. -/
def nearest (memo : Memo) : Nat → Nat × Outcome
  | 0 => (0, (memo.get? 0).getD .start)
  | position + 1 =>
      match memo.get? (position + 1) with
      | some outcome => (position + 1, outcome)
      | none => memo.nearest position

variable {m : Type → Type} [Monad m]

/-- Goes on from a position with a known outcome by a number of positions. The
function applies the steps of a position to the forest before it. -/
def advance (step : Nat → Forest → m (Except Fault Outcome)) :
    Nat → Nat → Outcome → Memo → m (Except Fault Outcome × Memo)
  | 0, _, outcome, memo => pure (.ok outcome, memo)
  | count + 1, position, outcome, memo => do
      match ← step (position + 1) outcome.forest with
      | .error fault => pure (.error fault, memo)
      | .ok next => advance step count (position + 1) next (memo.store (position + 1) next)

/-- The outcome of a position, computed as far as it is not known. -/
def reach (step : Nat → Forest → m (Except Fault Outcome)) (memo : Memo) (position : Nat) :
    m (Except Fault Outcome × Memo) :=
  match memo.get? position with
  | some outcome => pure (.ok outcome, memo)
  | none =>
      let (known, outcome) := memo.nearest position
      advance step (position - known) known outcome memo

end Memo

end TreePass
