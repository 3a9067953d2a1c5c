import TreePass.Proofs.Rewrite.Grafting

/-!
# A rewrite is a walk

Visiting a node grafts onto the staging area what the walk leaves of the node,
and counts what the walk counts. In the end the staging area carries the forest
that the walk made, so that building it gives that forest, or the first members
of one name in it. A gap never comes up: what becomes of gaps does not matter.
-/

namespace TreePass

/-! ## Tallies -/

namespace Tally

theorem merge_assoc (a b c : Tally) : (a.merge b).merge c = a.merge (b.merge c) := by
  simp [merge, Nat.add_assoc]

@[simp] theorem merge_zero (a : Tally) : a.merge zero = a := rfl

@[simp] theorem zero_merge (a : Tally) : zero.merge a = a := by
  simp [merge, zero]

end Tally

namespace Rewriter

variable {steps : List PureStep} {tree : Forest}

theorem countMissing_eq (keys others : List String) :
    countMissing keys others = Walk.missing keys others := by
  rw [countMissing, Walk.missing, List.countP_eq_length_filter]
  simp

/-- What members come to, counted on top of a tally. -/
def countFates (tally : Tally) (fates : List (Member × Option Member)) : Tally :=
  { tally with
    membersRemoved := tally.membersRemoved + fates.countP fun fate => fate.2.isNone
    membersRewritten := tally.membersRewritten +
      fates.countP fun fate => fate.2.any fun left => left ≠ fate.1 }

theorem countFates_countChanges (before kept : Node) (tally : Tally)
    (fates : List (Member × Option Member)) :
    countFates (countChanges before kept
        { tally with nodesVisited := tally.nodesVisited + 1 }) fates =
      tally.merge (Walk.tallyOf before kept fates) := by
  simp [countFates, countChanges, countMissing_eq, Tally.merge, Walk.tallyOf, Nat.add_assoc]

/-! ## Folds over steps -/

/-- The steps on the forest as a whole leave what the walk starts from. -/
theorem foldTree_eq (tally : Tally) (forest : Forest) (steps : List PureStep) :
    foldTree tally forest steps = Walk.settle forest steps >>= fun settled =>
      .ok (settled.1, { tally with treeRewrites := tally.treeRewrites + settled.2 }) := by
  induction steps generalizing tally forest with
  | nil => rfl
  | cons step rest ih =>
      rw [foldTree, Walk.settle]
      split
      next =>
        cases step.rule.onTree forest with
        | error fault => rfl
        | ok next =>
            rw [ok_bind, ok_bind, ih]
            cases Walk.settle next rest with
            | error fault => rfl
            | ok settled =>
                by_cases hsame : next.same forest
                · simp [hsame, pure, Except.pure]
                · simp [hsame, pure, Except.pure, Nat.add_assoc, Nat.add_comm 1]
      next => exact ih tally forest

section Effects

variable {m : Type → Type} [Monad m]

/-- A node is rewritten by the rules of the steps that apply to it as it was. -/
theorem foldNode_eq_onNodeAll (entered current : Node) (steps : List (Step m)) :
    foldNode tree entered current steps = Rule.onNodeAll tree current
      ((steps.filter fun step => step.admits tree (.node entered)).map Step.rule) := by
  induction steps generalizing current with
  | nil => rfl
  | cons step rest ih =>
      rw [foldNode, List.filter_cons]
      split
      next =>
        rw [List.map_cons, Rule.onNodeAll]
        refine congrArg _ (funext fun answer => ?_)
        cases answer with
        | none => rfl
        | some next => exact ih next
      next => exact ih current

theorem foldMember_eq_onMemberAll (before kept : Node) (entered current : Member)
    (steps : List (Step m)) :
    foldMember tree before kept entered current steps = Rule.onMemberAll tree kept current
      ((steps.filter fun step => step.admits tree (.member before entered)).map Step.rule) := by
  induction steps generalizing current with
  | nil => rfl
  | cons step rest ih =>
      rw [foldMember, List.filter_cons]
      split
      next =>
        rw [List.map_cons, Rule.onMemberAll]
        refine congrArg _ (funext fun answer => ?_)
        cases answer with
        | none => rfl
        | some next => exact ih next
      next => exact ih current

end Effects

theorem foldNode_eq (entered current : Node) (steps : List PureStep) :
    foldNode tree entered current steps =
      Rule.onNodeAll tree current (Walk.rulesFor steps tree (.node entered)) :=
  foldNode_eq_onNodeAll entered current steps

theorem foldMember_eq (before kept : Node) (entered current : Member)
    (steps : List PureStep) :
    foldMember tree before kept entered current steps =
      Rule.onMemberAll tree kept current
        (Walk.rulesFor steps tree (.member before entered)) :=
  foldMember_eq_onMemberAll before kept entered current steps

theorem foldMembers_eq (before kept : Node) (tally : Tally) (members : List Member) :
    foldMembers steps tree before kept tally members =
      Walk.fates steps tree before kept members >>= fun fates =>
        .ok (fates.filterMap Prod.snd, countFates tally fates) := by
  induction members generalizing tally with
  | nil => rfl
  | cons member rest ih =>
      rw [foldMembers, foldMember_eq, Walk.fates]
      cases Rule.onMemberAll tree kept member
          (Walk.rulesFor steps tree (.member before member)) with
      | error fault => rfl
      | ok left =>
          cases left with
          | none =>
              simp only [ok_bind, ih]
              cases Walk.fates steps tree before kept rest with
              | error fault => rfl
              | ok fates => simp [countFates, Nat.add_assoc, Nat.add_comm 1, pure, Except.pure]
          | some left =>
              simp only [ok_bind, ih]
              cases Walk.fates steps tree before kept rest with
              | error fault => rfl
              | ok fates =>
                  by_cases hsame : left = member
                  · simp [countFates, hsame, pure, Except.pure]
                  · simp [countFates, hsame, Nat.add_assoc, Nat.add_comm 1, pure, Except.pure]

/-! ## Visits -/

/-- Where a visit of one node grafts what a walk leaves of it, visits of siblings
graft what the walk leaves of all of them. -/
theorem foldlM_eq_graft {parent : Option Path} {visit : Progress → Node → Except Fault Progress}
    {walk : List String → Node → Except Fault (Option Node × Tally)}
    (hvisit : ∀ staging taken, staging.Open parent taken → ∀ tally node,
      visit ⟨staging, tally⟩ node = walk taken node >>= fun answer =>
        .ok ⟨staging.graft parent answer.1.toList, tally.merge answer.2⟩)
    (hplaced : ∀ taken node kept tally, walk taken node = .ok (some kept, tally) →
      kept.PlacedAt (placeUnder parent kept.name))
    {staging : Staging} {taken : List String} (hopen : staging.Open parent taken)
    (tally : Tally) (nodes : List Node) :
    nodes.foldlM visit ⟨staging, tally⟩ = Walk.siblings walk taken nodes >>= fun answer =>
      .ok ⟨staging.graft parent answer.1, tally.merge answer.2⟩ := by
  induction nodes generalizing staging taken tally with
  | nil => simp [Walk.siblings, Staging.graft_nil, pure, Except.pure]
  | cons node rest ih =>
      rw [List.foldlM_cons, hvisit staging taken hopen, Walk.siblings]
      cases hleft : walk taken node with
      | error fault => rfl
      | ok answer =>
          obtain ⟨left, counted⟩ := answer
          -- What is left of a node takes its name from the nodes that follow it.
          have hnext : (staging.graft parent left.toList).Open parent
              (left.toList.map Node.name ++ taken) := by
            refine hopen.graft fun kept hkept => ?_
            obtain rfl := Option.mem_toList.mp hkept
            exact hplaced taken node kept counted hleft
          simp only [ok_bind]
          rw [ih hnext]
          cases Walk.siblings walk (left.toList.map Node.name ++ taken) rest with
          | error fault => rfl
          | ok others =>
              simp only [ok_bind, pure, Except.pure]
              rw [Staging.graft_graft hopen.parent_registered, Tally.merge_assoc]

/-- A visit grafts what the walk leaves of the node. -/
theorem visit_eq_graft (levels : Nat) {staging : Staging} {parent : Option Path}
    {taken : List String} (hopen : staging.Open parent taken) (tally : Tally) (node : Node) :
    visit steps tree levels parent ⟨staging, tally⟩ node =
      Walk.visit steps tree levels parent taken node >>= fun answer =>
        .ok ⟨staging.graft parent answer.1.toList, tally.merge answer.2⟩ := by
  induction levels generalizing staging parent taken tally node with
  | zero => rfl
  | succ levels ih =>
      rw [visit, Walk.visit, foldNode_eq]
      cases Rule.onNodeAll tree node (Walk.rulesFor steps tree (.node node)) with
      | error fault => rfl
      | ok answer =>
          cases answer with
          | none =>
              simp [pure, Except.pure, Staging.graft_nil, Tally.merge]
          | some kept =>
              simp only [ok_bind]
              -- In an open place, a path is registered exactly if its name is taken.
              by_cases hnew : kept.name ∈ taken
              · rw [if_pos hnew, if_pos ((hopen.contains_iff kept.name).mpr hnew)]
                rfl
              · rw [if_neg hnew, if_neg (mt (hopen.contains_iff kept.name).mp hnew),
                  foldMembers_eq]
                cases Walk.fates steps tree node kept (Keyed.values kept.members) with
                | error fault => rfl
                | ok fates =>
                    -- The children find the place below the staged node open, with no name taken.
                    have hbelow := foldlM_eq_graft
                      (fun staging taken hopen => ih hopen)
                      (fun taken node kept tally h => (Walk.visit_placed h).1)
                      (hopen.below hnew (fates.filterMap Prod.snd))
                      (tally.merge (Walk.tallyOf node kept fates)) (Keyed.values kept.children)
                    simp only [ok_bind, Staging.stage_eq_graft hopen hnew, orRaise,
                      countFates_countChanges]
                    refine hbelow.trans ?_
                    cases Walk.siblings _ [] (Keyed.values kept.children) with
                    | error fault => rfl
                    | ok children =>
                        simp only [ok_bind, pure, Except.pure, Option.toList_some]
                        rw [Staging.graft_children (hopen.notMem_keys hnew), Tally.merge_assoc]

/-! ## Whole rewrites -/

/-- Of roots that were grafted onto nothing the forest of these roots is built, unless members
of one name are in it. -/
theorem build_graft {roots : List Node} (hnames : (roots.map Node.name).Nodup)
    (hplaced : ∀ root ∈ roots, root.PlacedAt (.single root.name)) (policy : MissingChild) :
    (Staging.empty.graft none roots).build policy =
      unlessFault (Forest.memberClash ⟨roots⟩) ⟨roots⟩ := by
  have hpaths : ((Forest.mk roots).nodes.map Node.path).Nodup :=
    Forest.nodup_paths hnames hplaced
  refine Staging.build_of_carries policy rfl hplaced fun root hroot inner hinner => ?_
  refine Keyed.get?_eq_some_of_mem ?_ ?_
  · rw [Keyed.Distinct, Staging.keys_graft]
    exact hpaths
  · refine List.mem_map.mpr ⟨inner, ?_, rfl⟩
    exact List.mem_flatMap.mpr ⟨root, hroot, hinner⟩

/-- Once the steps on the forest as a whole have settled it, a rewrite walks its roots
and then looks for members of one name. -/
theorem apply_of_settle (rewriter : Rewriter) (hsteps : steps ≠ []) {forest : Forest}
    {changes : Nat} (hsettle : Walk.settle forest steps = .ok (tree, changes)) :
    rewriter.apply steps forest =
      Walk.siblings (Walk.visit steps tree rewriter.levels none) [] tree.roots >>= fun left =>
        unlessFault ((Forest.memberClash ⟨left.1⟩).map Fault.build)
          { forest := ⟨left.1⟩, tally := Tally.merge { treeRewrites := changes } left.2 } := by
  have hvisits : tree.roots.foldlM (visit steps tree rewriter.levels none)
      ⟨.empty, { treeRewrites := changes }⟩ =
      Walk.siblings (Walk.visit steps tree rewriter.levels none) [] tree.roots >>= fun left =>
        .ok ⟨Staging.empty.graft none left.1, Tally.merge { treeRewrites := changes } left.2⟩ :=
    foldlM_eq_graft (fun _ _ hopen => visit_eq_graft rewriter.levels hopen)
      (fun _ _ _ _ hleft => (Walk.visit_placed hleft).1) Staging.open_empty _ _
  rw [apply, if_neg (by simpa using hsteps), foldTree_eq, hsettle]
  simp only [ok_bind, Tally.zero, Nat.zero_add]
  rw [hvisits]
  cases hleft : Walk.siblings (Walk.visit steps tree rewriter.levels none) [] tree.roots with
  | error fault => rfl
  | ok left =>
      obtain ⟨hplaced, hnames, -⟩ :=
        Walk.siblings_placed (fun _ _ _ _ hleft => Walk.visit_placed hleft) hleft
      simp only [ok_bind, build_graft hnames hplaced]
      cases Forest.memberClash ⟨left.1⟩ <;> rfl

/-- A rewrite comes through exactly if the visit of the forest that its steps settled on
does and no node of what that leaves has two members of one name. -/
theorem apply_eq_ok_iff_of_settle (hsteps : steps ≠ []) {forest : Forest} {changes : Nat}
    (hsettle : Walk.settle forest steps = .ok (tree, changes)) {rewriter : Rewriter}
    {outcome : Outcome} : rewriter.apply steps forest = .ok outcome ↔
      ∃ tally, Walk.siblings (Walk.visit steps tree rewriter.levels none) [] tree.roots =
          .ok (outcome.forest.roots, tally) ∧
        outcome.forest.memberClash = none ∧
        outcome.tally = Tally.merge { treeRewrites := changes } tally := by
  rw [apply_of_settle rewriter hsteps hsettle, bind_eq_ok]
  constructor
  · rintro ⟨left, hleft, hend⟩
    obtain ⟨hclash, rfl⟩ := unlessFault_eq_ok_iff.mp hend
    exact ⟨left.2, hleft, Option.map_eq_none_iff.mp hclash, rfl⟩
  · rintro ⟨tally, hleft, hclash, htally⟩
    refine ⟨_, hleft, unlessFault_eq_ok_iff.mpr ⟨Option.map_eq_none_iff.mpr hclash, ?_⟩⟩
    rw [← htally]

/-- Where the forest as a whole is left alone, what is left of its roots is what there
is, and what the visit counts is what is counted. -/
theorem apply_eq_ok_iff (hsteps : steps ≠ []) {forest : Forest}
    (hsettle : Walk.settle forest steps = .ok (forest, 0)) {rewriter : Rewriter}
    {outcome : Outcome} : rewriter.apply steps forest = .ok outcome ↔
      Walk.siblings (Walk.visit steps forest rewriter.levels none) [] forest.roots =
          .ok (outcome.forest.roots, outcome.tally) ∧
        outcome.forest.memberClash = none := by
  have htally (tally : Tally) : Tally.merge { treeRewrites := 0 } tally = tally :=
    Tally.zero_merge tally
  rw [apply_eq_ok_iff_of_settle hsteps hsettle]
  constructor
  · rintro ⟨tally, hleft, hclash, hsame⟩
    exact ⟨by rw [hsame, htally, hleft], hclash⟩
  · rintro ⟨hleft, hclash⟩
    exact ⟨_, hleft, hclash, (htally _).symm⟩

/-- A rewrite is the walk of as many levels. -/
theorem apply_eq_rewrite (rewriter : Rewriter) (hsteps : steps ≠ []) (forest : Forest) :
    rewriter.apply steps forest = Walk.rewrite steps rewriter.levels forest := by
  rw [Walk.rewrite]
  cases hsettle : Walk.settle forest steps with
  | error fault =>
      rw [apply, if_neg (by simpa using hsteps), foldTree_eq, hsettle]
      rfl
  | ok settled =>
      obtain ⟨tree, changes⟩ := settled
      rw [apply_of_settle rewriter hsteps hsettle]
      simp only [ok_bind]
      cases Walk.siblings (Walk.visit steps tree rewriter.levels none) [] tree.roots with
      | error fault => rfl
      | ok left =>
          simp only [ok_bind]
          cases Forest.memberClash ⟨left.1⟩ <;> rfl

/-- A rewrite makes of a forest what the walk makes of it, at every limit of
levels and whatever becomes of gaps. Within a limit at which the walk ends it is
the same for every greater limit. -/
theorem apply_eq_walk {steps : List PureStep} (hsteps : steps ≠ []) (forest : Forest) :
    (∀ rewriter : Rewriter,
      rewriter.apply steps forest = Walk.rewrite steps rewriter.levels forest) ∧
    ∀ levels, Walk.rewrite steps levels forest ≠ .error .tooDeep →
      ∀ rewriter : Rewriter, levels ≤ rewriter.levels →
        rewriter.apply steps forest = Walk.rewrite steps levels forest := by
  refine ⟨fun rewriter => apply_eq_rewrite rewriter hsteps forest, ?_⟩
  intro levels hends rewriter hle
  rw [apply_eq_rewrite rewriter hsteps]
  exact Walk.rewrite_keeps hle forest hends

/-- A root with two members that get one name and two children that get one. -/
def twinForest : Forest :=
  .ofRoots [((((Node.named "a").withMember (.named "m")).withMember (.named "n")).withChild
    (.named "b")).withChild (.named "c")]

def twinSteps : List PureStep :=
  [.ofRule (.renameMember "m" "n"),
    { name := "rename leaves", guard := some .leaf, rule := .renameNode "x" }]

/-- The children are met during the walk and the members only after it, so that
the children count, although they come later in the forest. -/
theorem apply_eq_walk_twins :
    twinSteps ≠ [] ∧ Walk.rewrite twinSteps 2 twinForest ≠ .error .tooDeep ∧
      ∀ policy : MissingChild, 2 ≤ ({ missingChild := policy } : Rewriter).levels ∧
        ({ missingChild := policy } : Rewriter).apply twinSteps twinForest =
          .error (.build (.duplicateNode ⟨"a", ["x"]⟩)) := by
  have hsteps : twinSteps ≠ [] := List.cons_ne_nil _ _
  have hwalk : Walk.rewrite twinSteps 2 twinForest =
      .error (.build (.duplicateNode ⟨"a", ["x"]⟩)) := rfl
  have hends : Walk.rewrite twinSteps 2 twinForest ≠ .error .tooDeep := by simp [hwalk]
  refine ⟨hsteps, hends, fun policy => ?_⟩
  have hlevels : 2 ≤ ({ missingChild := policy } : Rewriter).levels := by
    change 2 ≤ 1048576
    omega
  exact ⟨hlevels, ((apply_eq_walk hsteps twinForest).2 2 hends _ hlevels).trans hwalk⟩

end Rewriter

end TreePass
