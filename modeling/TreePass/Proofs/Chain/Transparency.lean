import Mathlib.Data.List.Forall2
import TreePass.Proofs.Chain.Reach

/-!
# Memos do not show

A chain with plain rules answers every question about an outcome from its
course, whatever was asked before and whatever failed: the memo saves work but
does not show in the answers.
-/

namespace TreePass

namespace Chain

variable {chain : Chain (Except Fault)} {memo : Memo} {last : Nat}

theorem ask_truthful (hmemo : memo.Follows chain last) (question : Question (Except Fault)) :
    ∃ reply after last, chain.ask memo question = .ok (reply, after) ∧
      chain.Truthful question reply ∧ after.Follows chain last := by
  obtain ⟨reply, after, tries, htruthful, hafter, -, -, hask⟩ := ask_noted hmemo question
  refine ⟨reply, after, _, ?_, htruthful, hafter⟩
  rw [ask, run_eq_noted, hask, noteAll_nothing, ok_bind]
  rfl

theorem interview_truthful (hmemo : memo.Follows chain last)
    (questions : List (Question (Except Fault))) :
    ∃ replies after, chain.interview memo questions = .ok (replies, after) ∧
      List.Forall₂ chain.Truthful questions replies := by
  induction questions generalizing memo last with
  | nil => exact ⟨[], memo, rfl, .nil⟩
  | cons question rest ih =>
      obtain ⟨reply, middle, last, hask, htruthful, hmiddle⟩ := ask_truthful hmemo question
      obtain ⟨replies, after, hrest, hreplies⟩ := ih hmiddle
      refine ⟨reply :: replies, after, ?_, .cons htruthful hreplies⟩
      rw [ask] at hask
      rw [interview] at hrest ⊢
      rw [interviewBy_cons, hask, ok_bind, hrest, ok_bind]
      rfl

/-- All questions in an interview are answered, and truthfully, where what is true
depends on the chain and the question alone. -/
theorem interview_transparent (chain : Chain (Except Fault)) :
    (∀ questions, ∃ replies memo, chain.interview .fresh questions = .ok (replies, memo) ∧
      List.Forall₂ chain.Truthful questions replies) ∧
    ∀ question, chain.target question ≠ none → ∃! reply, chain.Truthful question reply := by
  constructor
  · exact fun questions => interview_truthful (Memo.follows_fresh chain) questions
  · exact fun question htarget => existsUnique_truthful htarget

/-- A fault is answered in the same way before and after other answers, and takes
nothing away from them. -/
theorem interview_transparent_broken :
    brokenChain.target .finalTree ≠ none ∧
    (∃! reply, brokenChain.Truthful .finalTree reply) ∧
    ∃ replies memo, brokenChain.interview .fresh
        [.finalTree, .tally "seed", .cached "seed", .tree "lost", .tree "break"] =
      .ok (replies, memo) ∧
      replies = [.forest (.error (.rewrite (.custom "broken"))),
        .tally (.ok { treeRewrites := 1, nodesVisited := 1 }), .cached true,
        .forest (.error (.pass (.notInSequence "lost"))),
        .forest (.error (.rewrite (.custom "broken")))] ∧
      List.Forall₂ brokenChain.Truthful
        [.finalTree, .tally "seed", .cached "seed", .tree "lost", .tree "break"] replies := by
  obtain ⟨hanswers, hunique⟩ := interview_transparent brokenChain
  have htarget : brokenChain.target .finalTree ≠ none := Option.some_ne_none _
  refine ⟨htarget, hunique _ htarget, ?_⟩
  obtain ⟨replies, memo, hrun, htruthful⟩ :=
    hanswers [.finalTree, .tally "seed", .cached "seed", .tree "lost", .tree "break"]
  have hreplies : (brokenChain.interview .fresh
      [.finalTree, .tally "seed", .cached "seed", .tree "lost", .tree "break"]).map Prod.fst =
    .ok [.forest (.error (.rewrite (.custom "broken"))),
        .tally (.ok { treeRewrites := 1, nodesVisited := 1 }), .cached true,
        .forest (.error (.pass (.notInSequence "lost"))),
        .forest (.error (.rewrite (.custom "broken")))] := by
    with_unfolding_all rfl
  rw [hrun] at hreplies
  exact ⟨replies, memo, hrun, Except.ok.inj hreplies, htruthful⟩

end Chain

end TreePass
