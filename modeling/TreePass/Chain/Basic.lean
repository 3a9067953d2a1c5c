import TreePass.Chain.Memo

/-!
# Chains of passes

A chain is a list of linked passes, headed by one that stands for the empty
forest. The forest of a pass is what its steps make of the forest of the pass
before it. Questions to a chain go through a memo: each answers together with
the memo that knows what was computed on the way, also when it fails.
-/

namespace TreePass

def emptyPassName : String := "$empty"

def nullPassName : String := "$null"

def isReservedPassName (name : String) : Bool :=
  name == emptyPassName || name == nullPassName

/-- A pass of a chain. -/
structure Pass (m : Type → Type) where
  name : String
  documentation : Option String := none
  /-- What the pass does, in order. -/
  steps : List (Step m) := []
  /-- The pass before it; there is none before the head alone. -/
  previous : Option String := none
  /-- The pass after it; there is none after the last. -/
  next : Option String := none

/-- The head of a chain whose first proper pass is `root`. -/
def Pass.sentinel {m : Type → Type} (root : String) : Pass m where
  name := emptyPassName
  next := some root

def Pass.isSentinel {m : Type → Type} (pass : Pass m) : Bool :=
  pass.name == emptyPassName

/-- Linked passes, the head first. -/
structure Chain (m : Type → Type) where
  passes : List (Pass m)
  rewriter : Rewriter := {}

namespace Chain

variable {m : Type → Type}

/-- The number of passes, the head included. -/
def length (chain : Chain m) : Nat := chain.passes.length

def get? (chain : Chain m) (name : String) : Option (Pass m) :=
  chain.passes.find? fun pass => pass.name == name

/-- The position of the pass of a name; the head is at 0. -/
def position? (chain : Chain m) (name : String) : Option Nat :=
  chain.passes.findIdx? fun pass => pass.name == name

/-- The position of the last pass. -/
def lastPosition (chain : Chain m) : Nat := chain.passes.length - 1

/-- The pass before the given one. -/
def previousOf (chain : Chain m) (pass : Pass m) : Option (Pass m) :=
  pass.previous.bind chain.get?

/-- The pass after the given one. -/
def nextOf (chain : Chain m) (pass : Pass m) : Option (Pass m) :=
  pass.next.bind chain.get?

/-- Whether the forest of a pass is known. -/
def isCached (chain : Chain m) (memo : Memo) (name : String) : Bool :=
  (chain.position? name).any memo.knows

/-- The names of the passes whose forest is known, in order. -/
def cachedNames (chain : Chain m) (memo : Memo) : List String :=
  (chain.passes.map Pass.name).filter (chain.isCached memo)

/-- The chain as it is shown: its names, and how many forests are known. -/
def describe (chain : Chain m) (memo : Memo) : String :=
  "PassSequence \x7b passes: " ++ Text.quotedList (chain.passes.map Pass.name) ++
    ", cached: " ++ toString memo.size ++ " \x7d"

/-! ## Answers

Questions are answered by a step function, which makes the outcome of a position
from the forest before it. The step function of a chain is `run`. -/

section Answers

variable {n : Type → Type} [Monad n] (step : Nat → Forest → n (Except Fault Outcome))

def outcomeAt (memo : Memo) (position : Nat) : n (Except Failure Outcome × Memo) := do
  let (answer, memo) ← memo.reach step position
  pure (answer.mapError .rewrite, memo)

def outcome (chain : Chain m) (memo : Memo) (name : String) :
    n (Except Failure Outcome × Memo) :=
  match chain.position? name with
  | none => pure (.error (.pass (.notInSequence name)), memo)
  | some position => outcomeAt step memo position

def treeBy (chain : Chain m) (memo : Memo) (name : String) :
    n (Except Failure Forest × Memo) := do
  let (answer, memo) ← chain.outcome step memo name
  pure (answer.map Outcome.forest, memo)

/-- What the pass of a name did to the forest before it. -/
def tallyBy (chain : Chain m) (memo : Memo) (name : String) :
    n (Except Failure Tally × Memo) := do
  let (answer, memo) ← chain.outcome step memo name
  pure (answer.map Outcome.tally, memo)

/-- The forest of the last pass. -/
def finalTreeBy (chain : Chain m) (memo : Memo) : n (Except Failure Forest × Memo) := do
  let (answer, memo) ← outcomeAt step memo chain.lastPosition
  pure (answer.map Outcome.forest, memo)

end Answers

variable [Monad m] [MonadExceptOf Fault m]

/-- Runs a computation and answers its fault instead of raising it. -/
def observe {α : Type} (computation : m α) : m (Except Fault α) :=
  tryCatch (Except.ok <$> computation) fun fault => pure (.error fault)

/-- What the steps of a position make of a forest; without a pass there the
forest stays as it is. -/
def run (chain : Chain m) (position : Nat) (forest : Forest) : m (Except Fault Outcome) :=
  match chain.passes[position]? with
  | none => pure (.ok { forest, tally := .zero })
  | some pass => observe (chain.rewriter.apply pass.steps forest)

/-- The forest of the pass of a name, by the steps of the chain. -/
def tree (chain : Chain m) (memo : Memo) (name : String) :
    m (Except Failure Forest × Memo) :=
  chain.treeBy chain.run memo name

/-- What the pass of a name did, by the steps of the chain. -/
def tally (chain : Chain m) (memo : Memo) (name : String) :
    m (Except Failure Tally × Memo) :=
  chain.tallyBy chain.run memo name

/-- The forest of the last pass, by the steps of the chain. -/
def finalTree (chain : Chain m) (memo : Memo) : m (Except Failure Forest × Memo) :=
  chain.finalTreeBy chain.run memo

end Chain

end TreePass
