import TreePass.Proofs.Work

/-!
# Surveys of rewrites

A survey is a rewrite that also notes what it came by: the forest that the steps on
the forest as a whole left, and the nodes that the visit kept, each as it was when it
entered, before any step worked on it. What a survey makes of a forest, and the
effects and faults on the way, are those of the rewrite.
-/

namespace TreePass

/-- The state of a visit, with the nodes that were kept so far. -/
structure Survey where
  progress : Progress
  /-- The kept nodes as they entered, in the order in which they were met. -/
  kept : List Node := []

/-- What a rewrite came by and what it made. -/
structure Report where
  /-- The forest that the visit started from. -/
  tree : Forest
  kept : List Node
  outcome : Outcome

namespace Rewriter

variable {σ : Type}

/-- Visits a node as `visit` does and notes it if it is kept. -/
def surveyVisit (steps : List (Step (Work σ))) (forest : Forest) :
    Nat → Option Path → Survey → Node → Work σ Survey
  | 0, _, _, _ => throw Fault.tooDeep
  | levels + 1, parent, survey, node => do
      let progress := survey.progress
      let tally := { progress.tally with nodesVisited := progress.tally.nodesVisited + 1 }
      match ← foldNode forest node node steps with
      | none =>
          pure { survey with
            progress := { progress with
              tally := { tally with nodesRemoved := tally.nodesRemoved + 1 } } }
      | some kept =>
          let path := placeUnder parent kept.name
          if progress.staging.contains path then
            throw (Fault.build (.duplicateNode path))
          let (members, tally) ←
            foldMembers steps forest node kept (countChanges node kept tally)
              (Keyed.values kept.members)
          let staging ← orRaise Fault.build (stage progress.staging parent kept members)
          (Keyed.values kept.children).foldlM (surveyVisit steps forest levels (some path))
            { progress := { staging, tally }, kept := survey.kept ++ [node] }

/-- Applies steps to a forest as `apply` does where there are any, and reports. -/
def survey (rewriter : Rewriter) (steps : List (Step (Work σ))) (forest : Forest) :
    Work σ Report := do
  let (tree, tally) ← foldTree .zero forest steps
  let survey ← tree.roots.foldlM (surveyVisit steps tree rewriter.levels none)
    { progress := { tally } }
  let forest ← orRaise Fault.build (survey.progress.staging.build rewriter.missingChild)
  pure { tree, kept := survey.kept, outcome := { forest, tally := survey.progress.tally } }

variable {steps : List (Step (Work σ))} {tree : Forest}

theorem foldlM_eq_survey {visit : Progress → Node → Work σ Progress}
    {noting : Survey → Node → Work σ Survey}
    (hvisit : ∀ survey node, visit survey.progress node = Survey.progress <$> noting survey node)
    (survey : Survey) (nodes : List Node) :
    nodes.foldlM visit survey.progress = Survey.progress <$> nodes.foldlM noting survey := by
  induction nodes generalizing survey with
  | nil => rfl
  | cons node rest ih =>
      rw [List.foldlM_cons, List.foldlM_cons, hvisit, map_bind, bind_map_left]
      exact bind_congr fun survey => ih survey

/-- The visit does not depend on what is noted. -/
theorem visit_eq_surveyVisit (levels : Nat) (parent : Option Path) (survey : Survey) (node : Node) :
    visit steps tree levels parent survey.progress node =
      Survey.progress <$> surveyVisit steps tree levels parent survey node := by
  induction levels generalizing parent survey node with
  | zero => rfl
  | succ levels ih =>
      rw [visit, surveyVisit, map_bind]
      refine bind_congr fun answer => ?_
      cases answer with
      | none => rfl
      | some kept =>
          dsimp only
          split
          next => rfl
          next =>
            rw [map_bind]
            refine bind_congr fun folded => ?_
            rw [map_bind]
            refine bind_congr fun staging => ?_
            exact foldlM_eq_survey (ih _)
              { progress := { staging, tally := folded.2 }, kept := survey.kept ++ [node] } _

/-- A rewrite is its survey with all but the outcome forgotten. -/
theorem apply_eq_survey (rewriter : Rewriter) (hsteps : steps ≠ []) (forest : Forest) :
    rewriter.apply steps forest = Report.outcome <$> rewriter.survey steps forest := by
  rw [apply, if_neg (by simpa using hsteps), survey, map_bind]
  refine bind_congr fun settled => ?_
  obtain ⟨tree, tally⟩ := settled
  have hvisits : tree.roots.foldlM (visit steps tree rewriter.levels none) { tally } =
      Survey.progress <$>
        tree.roots.foldlM (surveyVisit steps tree rewriter.levels none) { progress := { tally } } :=
    foldlM_eq_survey (visit_eq_surveyVisit rewriter.levels none) { progress := { tally } } _
  dsimp only
  rw [hvisits, bind_map_left, map_bind]
  refine bind_congr fun survey => ?_
  rw [map_bind]
  exact bind_congr fun forest => rfl

end Rewriter

end TreePass
