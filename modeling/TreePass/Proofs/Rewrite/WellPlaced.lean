import TreePass.Proofs.Rewrite.Refinement
import TreePass.Proofs.Staging.Named
import TreePass.Proofs.Work

/-!
# Rewrites make well-placed forests

Whatever the rules make of names, of maps and of the forest as a whole, and
whatever state they keep on the way, a visit only ever adds entries that are
named by their paths. What is built in the end is therefore well placed, also
where the forest that the rewrite started from is not.
-/

namespace TreePass

namespace Rewriter

variable {σ : Type} {steps : List (Step (Work σ))} {tree : Forest}

/-- What holds of a staging area whenever one more node has been staged is kept by visits,
whatever the steps do. -/
theorem visit_keeps (kept : Staging → Prop)
    (hstage : ∀ {staging after : Staging} {parent : Option Path} {node : Node}
      {members : List Member}, kept staging → stage staging parent node members = .ok after →
        kept after)
    (levels : Nat) (parent : Option Path) {progress : Progress} (hbefore : kept progress.staging)
    (node : Node) :
    Ensures (visit steps tree levels parent progress node) fun after => kept after.staging := by
  induction levels generalizing parent progress node with
  | zero => exact .throw _
  | succ levels ih =>
      rw [visit]
      refine (Ensures.trivial _).bind fun folded _ => ?_
      cases folded with
      | none => exact .pure hbefore
      | some left =>
          dsimp only
          split
          next => exact .throw _
          next =>
            refine (Ensures.trivial _).bind fun folded _ => ?_
            refine Ensures.bind (.orRaise fun staging hstaged => hstage hbefore hstaged) ?_
            intro staging hstaged
            -- The children go on from what the visits of their elder siblings left.
            exact .foldlM (fun _ child hprogress => ih _ hprogress child) _ hstaged

/-- What steps make of a forest is well placed if there are any. -/
theorem apply_wellPlaced (rewriter : Rewriter) (hsteps : steps ≠ []) (forest : Forest) :
    Ensures (rewriter.apply steps forest) fun outcome => outcome.forest.WellPlaced := by
  rw [apply, if_neg (by simpa using hsteps)]
  refine (Ensures.trivial _).bind fun settled _ => ?_
  obtain ⟨tree, tally⟩ := settled
  have hvisits : Ensures (tree.roots.foldlM (visit steps tree rewriter.levels none) { tally })
      fun progress => progress.staging.Named :=
    .foldlM (fun _ root hbefore => visit_keeps Staging.Named (fun hnamed => hnamed.stage) _ none
      hbefore root) _ Staging.named_empty
  refine hvisits.bind fun progress hnamed => ?_
  refine Ensures.bind (.orRaise fun built hbuilt => Staging.build_wellPlaced hnamed hbuilt) ?_
  exact fun built hbuilt => .pure hbuilt

theorem apply_keeps_wellPlaced (rewriter : Rewriter) (steps : List (Step (Work σ)))
    {forest : Forest} (hplaced : forest.WellPlaced) :
    Ensures (rewriter.apply steps forest) fun outcome => outcome.forest.WellPlaced := by
  by_cases hsteps : steps = []
  · subst hsteps
    exact .pure hplaced
  · exact apply_wellPlaced rewriter hsteps forest

end Rewriter

/-! ## Plain rules -/

/-- Placed roots of different names make a well placed forest if no node in them has two
members of one name. -/
theorem Forest.wellPlaced_of_memberClash {forest : Forest}
    (hplaced : ∀ root ∈ forest.roots, root.PlacedAt (.single root.name))
    (hnames : (forest.roots.map Node.name).Nodup) (hclash : forest.memberClash = none) :
    forest.WellPlaced := by
  refine ⟨hnames, hplaced, fun node hnode => ?_⟩
  obtain ⟨root, hroot, hinner⟩ := List.mem_flatMap.mp hnode
  obtain ⟨path, hnode'⟩ := (hplaced root hroot).of_mem hinner
  cases hnode' with
  | intro _ hmember _ _ _ =>
      rw [Keyed.Distinct, ← Keyed.map_label_values hmember]
      exact Forest.memberClash_eq_none_iff.mp hclash node hnode

/-- What a rewrite by plain rules answers is well placed. -/
theorem Rewriter.wellPlaced_of_apply {rewriter : Rewriter} {steps : List PureStep}
    (hsteps : steps ≠ []) {forest : Forest} {outcome : Outcome}
    (happly : rewriter.apply steps forest = .ok outcome) : outcome.forest.WellPlaced := by
  rw [rewriter.apply_eq_rewrite hsteps, Walk.rewrite] at happly
  obtain ⟨⟨tree, changes⟩, -, happly⟩ := bind_eq_ok.mp happly
  obtain ⟨⟨roots, tally⟩, hroots, happly⟩ := bind_eq_ok.mp happly
  obtain ⟨hplaced, hnames, -⟩ :=
    Walk.siblings_placed (fun _ _ _ _ hvisit => Walk.visit_placed hvisit) hroots
  dsimp only at happly
  split at happly
  next => cases happly
  next hclash =>
    cases happly
    exact Forest.wellPlaced_of_memberClash hplaced hnames hclash

end TreePass
