import TreePass.Proofs.Chain.Interview
import TreePass.Proofs.Keyed
import TreePass.Proofs.Rewrite.WellPlaced

/-!
# Chains hand out well-placed forests

The forest that a chain starts from is well placed, and every pass keeps it so:
a pass without steps because it changes nothing, any other whatever it starts
from. A memo that knows only outcomes with well-placed forests therefore never
comes to know another one.
-/

namespace TreePass

/-- If there is an outcome at all, then its forest is well placed. -/
def WellPlacedIfAny {ε : Type} (answer : Except ε Outcome) : Prop :=
  ∀ outcome, answer = .ok outcome → outcome.forest.WellPlaced

namespace Memo

def WellPlaced (memo : Memo) : Prop :=
  ∀ entry ∈ memo.outcomes, entry.2.forest.WellPlaced

theorem wellPlaced_fresh : fresh.WellPlaced := by
  intro entry hentry
  rw [List.mem_singleton.mp hentry]
  exact Forest.wellPlaced_empty

theorem WellPlaced.get? {memo : Memo} (hmemo : memo.WellPlaced) {position : Nat}
    {outcome : Outcome} (hget : memo.get? position = some outcome) :
    outcome.forest.WellPlaced :=
  hmemo _ (Keyed.mem_of_get? hget)

theorem WellPlaced.store {memo : Memo} (hmemo : memo.WellPlaced) (position : Nat)
    {outcome : Outcome} (houtcome : outcome.forest.WellPlaced) :
    (memo.store position outcome).WellPlaced := by
  intro entry hentry
  rcases Keyed.mem_put hentry with rfl | hold
  · exact houtcome
  · exact hmemo entry hold

theorem WellPlaced.nearest {memo : Memo} (hmemo : memo.WellPlaced) (position : Nat) :
    (memo.nearest position).2.forest.WellPlaced := by
  induction position with
  | zero =>
      rw [Memo.nearest]
      cases hget : memo.get? 0 with
      | none => exact Forest.wellPlaced_empty
      | some outcome => exact hmemo.get? hget
  | succ position ih =>
      rw [Memo.nearest]
      cases hget : memo.get? (position + 1) with
      | none => exact ih
      | some outcome => exact hmemo.get? hget

section Reach

variable {σ : Type} {step : Nat → Forest → Work σ (Except Fault Outcome)}

/-- Going on position by position keeps what is known well placed, if every step
keeps a forest well placed. -/
theorem advance_wellPlaced
    (hstep : ∀ position forest, forest.WellPlaced →
      Answers (step position forest) WellPlacedIfAny)
    (count position : Nat) {outcome : Outcome} {memo : Memo}
    (houtcome : outcome.forest.WellPlaced) (hmemo : memo.WellPlaced) :
    Answers (advance step count position outcome memo) fun reached =>
      WellPlacedIfAny reached.1 ∧ reached.2.WellPlaced := by
  induction count generalizing position outcome memo with
  | zero =>
      refine .pure ⟨fun other hother => ?_, hmemo⟩
      cases hother
      exact houtcome
  | succ count ih =>
      rw [advance]
      -- The forest of the next outcome is well placed, and so is the memo that stores it.
      refine (hstep (position + 1) outcome.forest houtcome).bind fun answer hanswer => ?_
      cases answer with
      | error fault => exact .pure ⟨fun _ hother => (nomatch hother), hmemo⟩
      | ok next => exact ih _ (hanswer next rfl) (hmemo.store _ (hanswer next rfl))

theorem reach_wellPlaced
    (hstep : ∀ position forest, forest.WellPlaced →
      Answers (step position forest) WellPlacedIfAny)
    {memo : Memo} (hmemo : memo.WellPlaced) (position : Nat) :
    Answers (memo.reach step position) fun reached =>
      WellPlacedIfAny reached.1 ∧ reached.2.WellPlaced := by
  rw [reach]
  cases hget : memo.get? position with
  | none => exact advance_wellPlaced hstep _ _ (hmemo.nearest position) hmemo
  | some outcome =>
      refine .pure ⟨fun other hother => ?_, hmemo⟩
      cases hother
      exact hmemo.get? hget

end Reach

end Memo

def Reply.WellPlaced (reply : Reply) : Prop :=
  ∀ forest, reply = .forest (.ok forest) → forest.WellPlaced

theorem Question.read_wellPlaced {m : Type → Type} (question : Question m)
    {answer : Except Failure Outcome} (hanswer : WellPlacedIfAny answer) :
    (question.read answer).WellPlaced := by
  intro forest hread
  cases answer with
  | error failure => cases question <;> cases hread
  | ok outcome =>
      cases question with
      | tally name => cases hread
      | _ =>
          cases hread
          exact hanswer outcome rfl

namespace Chain

variable {σ : Type}

theorem run_wellPlaced (chain : Chain (Work σ)) (position : Nat) {forest : Forest}
    (hplaced : forest.WellPlaced) : Answers (chain.run position forest) WellPlacedIfAny := by
  rw [run]
  cases chain.passes[position]? with
  | none =>
      refine .pure fun outcome houtcome => ?_
      cases houtcome
      exact hplaced
  | some pass => exact .observe (chain.rewriter.apply_keeps_wellPlaced pass.steps hplaced)

/-- A question is answered by a well-placed forest, if by any, and leaves only
well-placed forests known. -/
theorem ask_wellPlaced (chain : Chain (Work σ)) {memo : Memo} (hmemo : memo.WellPlaced)
    (question : Question (Work σ)) :
    Answers (chain.ask memo question) fun asked =>
      asked.1.WellPlaced ∧ asked.2.WellPlaced := by
  rw [ask]
  cases htarget : chain.target question with
  | none =>
      obtain ⟨known, hask⟩ : ∃ known, chain.askBy chain.run memo question =
          pure (.cached known, memo) := askBy_of_no_target htarget memo
      rw [hask]
      exact .pure ⟨fun _ hforest => (nomatch hforest), hmemo⟩
  | some target =>
      cases target with
      | error name =>
          rw [askBy_of_unknown htarget]
          exact .pure ⟨question.read_wellPlaced fun _ hanswer => (nomatch hanswer), hmemo⟩
      | ok position =>
          rw [askBy_of_position htarget]
          have hreach := Memo.reach_wellPlaced
            (fun position forest => chain.run_wellPlaced position) hmemo position
          refine hreach.bind fun reached hreached => ?_
          obtain ⟨answer, after⟩ := reached
          refine .pure ⟨question.read_wellPlaced fun outcome houtcome => ?_, hreached.2⟩
          cases answer with
          | error fault => cases houtcome
          | ok found =>
              cases houtcome
              exact hreached.1 outcome rfl

/-- All questions are answered, and by well-placed forests only, as long as only
such forests are known. -/
theorem interview_wellPlaced (chain : Chain (Work σ)) {memo : Memo} (hmemo : memo.WellPlaced)
    (questions : List (Question (Work σ))) :
    Answers (chain.interview memo questions) fun answered =>
      ∀ reply ∈ answered.1, reply.WellPlaced := by
  induction questions generalizing memo with
  | nil => exact .pure fun reply hreply => absurd hreply List.not_mem_nil
  | cons question rest ih =>
      refine (chain.ask_wellPlaced hmemo question).bind fun asked hasked => ?_
      refine (ih hasked.2).bind fun answered hanswered => ?_
      refine .pure fun reply hreply => ?_
      rcases List.mem_cons.mp hreply with rfl | hlater
      · exact hasked.1
      · exact hanswered reply hlater

/-- Whatever the rules do and whatever state they keep, and whatever forest they
are applied to, what steps make of a forest is well placed; and a chain answers
all questions, where every forest that it hands out is well placed. -/
theorem results_wellPlaced :
    (∀ (rewriter : Rewriter) (steps : List (Step (Work σ))) (forest : Forest), steps ≠ [] →
      Ensures (rewriter.apply steps forest) fun outcome => outcome.forest.WellPlaced) ∧
    ∀ (chain : Chain (Work σ)) (questions : List (Question (Work σ))),
      Answers (chain.interview .fresh questions) fun answered =>
        ∀ forest, Reply.forest (.ok forest) ∈ answered.1 → forest.WellPlaced := by
  constructor
  · exact fun rewriter steps forest hsteps => rewriter.apply_wellPlaced hsteps forest
  · intro chain questions before
    obtain ⟨answered, after, hrun, hplaced⟩ :=
      chain.interview_wellPlaced Memo.wellPlaced_fresh questions before
    exact ⟨answered, after, hrun, fun forest hforest => hplaced _ hforest forest rfl⟩

/-- Gives nodes the numbers of their visits as names, and a member under a key that
is not its name. -/
def numberNodes : Operations (Work Nat) :=
  { Operations.keep with
    onNode := fun _ node => do
      let number ← get
      set (number + 1)
      pure (some { node with name := toString number, members := [("key", .named "m")] }) }

def numberSteps : List (Step (Work Nat)) := [.ofRule (.custom "number nodes" numberNodes)]

/-- Two roots of one name, where children of one name stand under two other keys, at
a path that leads elsewhere. -/
def scatteredForest : Forest :=
  let leaf : Node := { Node.named "b" with path := .single "elsewhere" }
  ⟨[{ Node.named "a" with children := [("x", leaf), ("y", leaf)] }, .named "a"]⟩

def scatter : Operations (Work Nat) :=
  { Operations.keep with onTree := fun _ => pure scatteredForest }

/-- A chain that scatters a forest, numbers its nodes, and then keeps it. -/
def numberChain : Chain (Work Nat) where
  passes := [.sentinel "number",
    { name := "number",
      steps := .ofRule (.custom "scatter" scatter) :: numberSteps },
    { name := "keep" }]

def pathsOf : Reply → List Path
  | .forest (.ok forest) => forest.nodes.map Node.path
  | _ => []

theorem results_wellPlaced_scattered :
    numberSteps ≠ [] ∧
    (∃ outcome, (({} : Rewriter).apply numberSteps scatteredForest).run.run 7 =
      (.ok outcome, 11) ∧ outcome.forest.nodes.map Node.path =
        [.single "7", ⟨"7", ["8"]⟩, ⟨"7", ["9"]⟩, .single "10"] ∧ outcome.forest.WellPlaced) ∧
    ∃ answered after, (numberChain.interview .fresh [.tally "number", .tree "keep"]).run.run 0 =
      (.ok answered, after) ∧ answered.1.map pathsOf =
        [[], [.single "0", ⟨"0", ["1"]⟩, ⟨"0", ["2"]⟩, .single "3"]] ∧
      ∀ forest, Reply.forest (.ok forest) ∈ answered.1 → forest.WellPlaced := by
  obtain ⟨happly, hchain⟩ := @results_wellPlaced Nat
  have hsteps : numberSteps ≠ [] := List.cons_ne_nil _ _
  refine ⟨hsteps, ?_, ?_⟩
  · obtain ⟨outcome, hrun, hpaths⟩ :
        ∃ outcome, (({} : Rewriter).apply numberSteps scatteredForest).run.run 7 =
          (.ok outcome, 11) ∧ outcome.forest.nodes.map Node.path =
            [.single "7", ⟨"7", ["8"]⟩, ⟨"7", ["9"]⟩, .single "10"] :=
      ⟨_, by with_unfolding_all rfl, by with_unfolding_all rfl⟩
    exact ⟨outcome, hrun, hpaths, happly {} numberSteps scatteredForest hsteps 7 outcome 11 hrun⟩
  · obtain ⟨answered, after, hrun, hplaced⟩ :=
      hchain numberChain [.tally "number", .tree "keep"] 0
    have hpaths : (((numberChain.interview .fresh [.tally "number", .tree "keep"]).run.run 0).1.map
        fun answered => answered.1.map pathsOf).toOption =
          some [[], [.single "0", ⟨"0", ["1"]⟩, ⟨"0", ["2"]⟩, .single "3"]] := by
      decide +kernel
    rw [hrun] at hpaths
    exact ⟨answered, after, hrun, Option.some.inj hpaths, hplaced⟩

end Chain

end TreePass
