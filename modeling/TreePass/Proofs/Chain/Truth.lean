import Mathlib.Logic.ExistsUnique
import TreePass.Proofs.Chain.Course
import TreePass.Proofs.Chain.Interview

/-!
# Truthful replies

A reply to a question about an outcome is truthful if it tells what the course
of the chain says, where the fault of the first position that fails stands for
everything from there on. There is exactly one such reply.
-/

namespace TreePass

namespace Chain

/-- A reply that tells what the course says of the outcome that a question is about.
Nothing is said of a reply that tells what is known. -/
inductive Truthful (chain : Chain (Except Fault)) (question : Question (Except Fault)) :
    Reply → Prop where
  /-- All positions up to the one in question have outcomes. -/
  | outcome {position : Nat} {outcome : Outcome}
      (htarget : chain.target question = some (.ok position))
      (hcourse : chain.course position = .ok outcome) :
      Truthful chain question (question.read (.ok outcome))
  /-- The position in question fails, or one before it. -/
  | fault {position failing : Nat} {fault : Fault}
      (htarget : chain.target question = some (.ok position)) (hle : failing ≤ position)
      (hfails : chain.FailsAt fault failing) :
      Truthful chain question (question.read (.error (.rewrite fault)))
  /-- No pass has the name in question. -/
  | unknown {name : String} (htarget : chain.target question = some (.error name)) :
      Truthful chain question (question.read (.error (.pass (.notInSequence name))))
  | cached {known : Bool} (htarget : chain.target question = none) :
      Truthful chain question (.cached known)

variable {chain : Chain (Except Fault)} {question : Question (Except Fault)} {reply : Reply}

theorem truthful_iff_of_position {position : Nat}
    (htarget : chain.target question = some (.ok position)) :
    chain.Truthful question reply ↔
      reply = question.read ((chain.course position).mapError .rewrite) := by
  constructor
  · intro htruthful
    cases htruthful with
    | outcome hother hcourse =>
        obtain rfl : _ = position := by simpa [htarget, eq_comm] using hother
        rw [hcourse]
        rfl
    | fault hother hle hfails =>
        obtain rfl : _ = position := by simpa [htarget, eq_comm] using hother
        rw [course_error_of_le hfails.course_eq hle]
        rfl
    | unknown hother => simp [htarget] at hother
    | cached hother => simp [htarget] at hother
  · rintro rfl
    cases hcourse : chain.course position with
    | ok outcome => exact .outcome htarget hcourse
    | error fault =>
        obtain ⟨failing, hle, hfails⟩ := course_eq_error_iff.mp hcourse
        exact .fault htarget hle hfails

theorem truthful_iff_of_unknown {name : String}
    (htarget : chain.target question = some (.error name)) :
    chain.Truthful question reply ↔
      reply = question.read (.error (.pass (.notInSequence name))) := by
  constructor
  · intro htruthful
    cases htruthful with
    | outcome hother _ => simp [htarget] at hother
    | fault hother _ _ => simp [htarget] at hother
    | unknown hother =>
        obtain rfl : _ = name := by simpa [htarget, eq_comm] using hother
        rfl
    | cached hother => simp [htarget] at hother
  · rintro rfl
    exact .unknown htarget

/-- Exactly one reply to a question about an outcome is truthful. -/
theorem existsUnique_truthful (htarget : chain.target question ≠ none) :
    ∃! reply, chain.Truthful question reply := by
  obtain ⟨target, htarget⟩ := Option.ne_none_iff_exists'.mp htarget
  cases target with
  | error name => simp only [truthful_iff_of_unknown htarget, existsUnique_eq]
  | ok position => simp only [truthful_iff_of_position htarget, existsUnique_eq]

/-- A question that asks for no position is answered truthfully from the memo alone. -/
theorem askBy_of_not_asked (hasked : chain.asked question = none) (memo : Memo) :
    ∃ reply, chain.Truthful question reply ∧
      ∀ {n : Type → Type} [Monad n] [LawfulMonad n]
        (step : Nat → Forest → n (Except Fault Outcome)),
        chain.askBy step memo question = pure (reply, memo) := by
  cases htarget : chain.target question with
  | none =>
      cases question with
      | cached name => exact ⟨_, .cached htarget, fun _ => rfl⟩
      | _ => cases htarget
  | some target =>
      cases target with
      | error name => exact ⟨_, .unknown htarget, fun step => askBy_of_unknown htarget memo⟩
      | ok position =>
          rw [asked, htarget] at hasked
          cases hasked

end Chain

end TreePass
