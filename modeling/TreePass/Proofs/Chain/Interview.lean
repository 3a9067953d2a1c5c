import TreePass.Chain.Basic

/-!
# Interviews

An interview puts any questions to a chain, one after the other, where each
answer comes with the memo that the next question finds. Most questions are
about the outcome of one position; the others leave the memo alone.
-/

namespace TreePass

/-- What can be asked of a chain. -/
inductive Question (m : Type → Type) where
  | treeOf (pass : Pass m)
  | tree (name : String)
  | finalTree
  | tally (name : String)
  | cached (name : String)

/-- What a chain answers. -/
inductive Reply where
  | forest (answer : Except Failure Forest)
  | tally (answer : Except Failure Tally)
  | cached (known : Bool)

namespace Chain

variable {m n : Type → Type} [Monad n]

/-- Answers a question, where `step` makes the outcome of a position from the
forest before it. -/
def askBy (step : Nat → Forest → n (Except Fault Outcome)) (chain : Chain m) (memo : Memo) :
    Question m → n (Reply × Memo)
  | .treeOf pass => do
      let (answer, memo) ← chain.treeBy step memo pass.name
      pure (.forest answer, memo)
  | .tree name => do
      let (answer, memo) ← chain.treeBy step memo name
      pure (.forest answer, memo)
  | .finalTree => do
      let (answer, memo) ← chain.finalTreeBy step memo
      pure (.forest answer, memo)
  | .tally name => do
      let (answer, memo) ← chain.tallyBy step memo name
      pure (.tally answer, memo)
  | .cached name => pure (.cached (chain.isCached memo name), memo)

/-- Answers questions, one after the other. -/
def interviewBy (step : Nat → Forest → n (Except Fault Outcome)) (chain : Chain m)
    (memo : Memo) : List (Question m) → n (List Reply × Memo)
  | [] => pure ([], memo)
  | question :: rest => do
      let (reply, memo) ← chain.askBy step memo question
      let (replies, memo) ← interviewBy step chain memo rest
      pure (reply :: replies, memo)

/-- Answers a question by the steps of the chain. -/
def ask [Monad m] [MonadExceptOf Fault m] (chain : Chain m) (memo : Memo)
    (question : Question m) : m (Reply × Memo) :=
  chain.askBy chain.run memo question

/-- Answers questions by the steps of the chain, one after the other. -/
def interview [Monad m] [MonadExceptOf Fault m] (chain : Chain m) (memo : Memo)
    (questions : List (Question m)) : m (List Reply × Memo) :=
  chain.interviewBy chain.run memo questions

/-- The position of the pass of a name, or the name if no pass has it. -/
def locate (chain : Chain m) (name : String) : Except String Nat :=
  match chain.position? name with
  | none => .error name
  | some position => .ok position

/-- The position whose outcome a question is about, or the name that no pass has. Some
questions are about no outcome. -/
def target (chain : Chain m) : Question m → Option (Except String Nat)
  | .treeOf pass => some (chain.locate pass.name)
  | .tree name => some (chain.locate name)
  | .finalTree => some (.ok chain.lastPosition)
  | .tally name => some (chain.locate name)
  | .cached _ => none

/-- The position that a question makes a chain reach for, if any. -/
def asked (chain : Chain m) (question : Question m) : Option Nat :=
  (chain.target question).bind Except.toOption

end Chain

/-- What a question wants to know of an outcome. -/
def Question.read {m : Type → Type} : Question m → Except Failure Outcome → Reply
  | .tally _, outcome => .tally (outcome.map Outcome.tally)
  | _, outcome => .forest (outcome.map Outcome.forest)

namespace Chain

variable {m n : Type → Type} [Monad n]
  {step : Nat → Forest → n (Except Fault Outcome)} {chain : Chain m} {question : Question m}

theorem interviewBy_cons (memo : Memo) (rest : List (Question m)) :
    chain.interviewBy step memo (question :: rest) =
      chain.askBy step memo question >>= fun asked =>
        chain.interviewBy step asked.2 rest >>= fun answered =>
          pure (asked.1 :: answered.1, answered.2) :=
  rfl

theorem outcome_eq_locate (memo : Memo) (name : String) :
    chain.outcome step memo name = match chain.locate name with
      | .error unknown => pure (.error (.pass (.notInSequence unknown)), memo)
      | .ok position => outcomeAt step memo position := by
  rw [outcome, locate]
  cases chain.position? name <;> rfl

/-- A question about a position reaches for it, and reads what it wants of the
answer. -/
theorem askBy_of_position [LawfulMonad n] {position : Nat}
    (htarget : chain.target question = some (.ok position)) (memo : Memo) :
    chain.askBy step memo question = memo.reach step position >>= fun reached =>
      pure (question.read (reached.1.mapError .rewrite), reached.2) := by
  cases question with
  | cached name => cases htarget
  | finalTree =>
      cases htarget
      simp [askBy, finalTreeBy, outcomeAt, Question.read]
  | treeOf pass =>
      have hlocate : chain.locate pass.name = .ok position := Option.some.inj htarget
      simp [askBy, treeBy, outcome_eq_locate, hlocate, outcomeAt, Question.read]
  | tree name =>
      have hlocate : chain.locate name = .ok position := Option.some.inj htarget
      simp [askBy, treeBy, outcome_eq_locate, hlocate, outcomeAt, Question.read]
  | tally name =>
      have hlocate : chain.locate name = .ok position := Option.some.inj htarget
      simp [askBy, tallyBy, outcome_eq_locate, hlocate, outcomeAt, Question.read]

theorem askBy_of_unknown [LawfulMonad n] {unknown : String}
    (htarget : chain.target question = some (.error unknown)) (memo : Memo) :
    chain.askBy step memo question =
      pure (question.read (.error (.pass (.notInSequence unknown))), memo) := by
  cases question with
  | cached name => cases htarget
  | finalTree => cases htarget
  | treeOf pass =>
      have hlocate : chain.locate pass.name = .error unknown := Option.some.inj htarget
      simp [askBy, treeBy, outcome_eq_locate, hlocate, Question.read, Except.map]
  | tree name =>
      have hlocate : chain.locate name = .error unknown := Option.some.inj htarget
      simp [askBy, treeBy, outcome_eq_locate, hlocate, Question.read, Except.map]
  | tally name =>
      have hlocate : chain.locate name = .error unknown := Option.some.inj htarget
      simp [askBy, tallyBy, outcome_eq_locate, hlocate, Question.read, Except.map]

/-- All other questions are answered from the memo alone. -/
theorem askBy_of_no_target (htarget : chain.target question = none) (memo : Memo) :
    ∃ known, chain.askBy step memo question = pure (.cached known, memo) := by
  cases question with
  | cached name => exact ⟨_, rfl⟩
  | _ => cases htarget

theorem target_of_asked {position : Nat} (hasked : chain.asked question = some position) :
    chain.target question = some (.ok position) := by
  obtain ⟨target, htarget, hposition⟩ := Option.bind_eq_some_iff.mp hasked
  cases target with
  | error name => cases hposition
  | ok other =>
      cases hposition
      exact htarget

end Chain

end TreePass
