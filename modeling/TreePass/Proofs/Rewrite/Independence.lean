import TreePass.Proofs.Forest.Standing
import TreePass.Proofs.Rewrite.Composite
import TreePass.Proofs.Rewrite.Order

/-!
# Roots are rewritten independently

Steps are local if they leave the forest as a whole alone and do not look at it. What
they make of the roots of two forests side by side is then what they make of each of
the forests, side by side, and so is what they count. Only names can come between
them: a root cannot be kept under the name of one that was kept before.
-/

namespace TreePass

/-- The rule gives every forest back and works on nodes and members wherever they are in
the same way. -/
structure Rule.Local (rule : Rule (Except Fault)) : Prop where
  onTree : ∀ forest, rule.onTree forest = .ok forest
  onNode : ∀ tree tree' node, rule.onNode tree node = rule.onNode tree' node
  onMember : ∀ tree tree' node member,
    rule.onMember tree node member = rule.onMember tree' node member

/-- The rule is local, and whether the step applies to a node or a member does not
depend on the forest. -/
structure Step.Local (step : PureStep) : Prop where
  rule : step.rule.Local
  admits_node : ∀ tree tree' node,
    step.admits tree (.node node) = step.admits tree' (.node node)
  admits_member : ∀ tree tree' node member,
    step.admits tree (.member node member) = step.admits tree' (.member node member)

namespace Rule

variable {rules : List (Rule (Except Fault))}

theorem onNodeAll_local (hrules : ∀ rule ∈ rules, rule.Local) (tree tree' : Forest)
    (node : Node) : onNodeAll tree node rules = onNodeAll tree' node rules := by
  induction rules generalizing node with
  | nil => rfl
  | cons rule rest ih =>
      obtain ⟨hrule, hrest⟩ := List.forall_mem_cons.mp hrules
      simp only [onNodeAll_cons, hrule.onNode tree tree', ih hrest]

theorem onMemberAll_local (hrules : ∀ rule ∈ rules, rule.Local) (tree tree' : Forest)
    (node : Node) (member : Member) :
    onMemberAll tree node member rules = onMemberAll tree' node member rules := by
  induction rules generalizing member with
  | nil => rfl
  | cons rule rest ih =>
      obtain ⟨hrule, hrest⟩ := List.forall_mem_cons.mp hrules
      simp only [onMemberAll_cons, hrule.onMember tree tree', ih hrest]

end Rule

namespace Walk

variable {steps : List PureStep} {tree : Forest}
  {visit : List String → Node → Except Fault (Option Node × Tally)}

theorem sameBelow_local (hsteps : ∀ step ∈ steps, step.Local) (tree tree' : Forest) :
    SameBelow steps tree steps tree' := by
  have hrules (subject : Subject) : ∀ rule ∈ rulesFor steps tree' subject, rule.Local := by
    intro rule hrule
    obtain ⟨step, hstep, -, rfl⟩ := exists_of_mem_rulesFor hrule
    exact (hsteps step hstep).rule
  refine ⟨fun node => ?_, fun before kept member => ?_⟩
  · have hsame : rulesFor steps tree (.node node) = rulesFor steps tree' (.node node) :=
      congrArg (List.map Step.rule) (List.filter_congr fun step hstep =>
        (hsteps step hstep).admits_node tree tree' node)
    rw [hsame, Rule.onNodeAll_local (hrules _) tree tree']
  · have hsame : rulesFor steps tree (.member before member) =
        rulesFor steps tree' (.member before member) :=
      congrArg (List.map Step.rule) (List.filter_congr fun step hstep =>
        (hsteps step hstep).admits_member tree tree' before member)
    rw [hsame, Rule.onMemberAll_local (hrules _) tree tree']

/-! ## Siblings side by side -/

/-- The later siblings are walked with the names taken that the earlier ones keep. -/
theorem siblings_append {taken : List String} {nodes kept : List Node} {tally : Tally}
    (hsiblings : siblings visit taken nodes = .ok (kept, tally)) (others : List Node) :
    siblings visit taken (nodes ++ others) =
      siblings visit ((kept.map Node.name).reverse ++ taken) others >>= fun rest =>
        .ok (kept ++ rest.1, tally.merge rest.2) := by
  induction nodes generalizing taken kept tally with
  | nil =>
      cases hsiblings
      rw [List.nil_append, List.map_nil, List.reverse_nil, List.nil_append]
      cases siblings visit taken others with
      | error fault => rfl
      | ok rest => rw [ok_bind, Tally.zero_merge]; rfl
  | cons node rest ih =>
      obtain ⟨left, first, later, more, hleft, hlater, rfl, rfl⟩ :=
        siblings_cons_eq_ok.mp hsiblings
      rw [List.cons_append, siblings, hleft, ok_bind]
      simp only [ih hlater]
      have htaken : ((left.toList ++ later).map Node.name).reverse ++ taken =
          (later.map Node.name).reverse ++ (left.toList.map Node.name ++ taken) := by
        cases left <;> simp
      rw [htaken]
      cases siblings visit ((later.map Node.name).reverse ++
          (left.toList.map Node.name ++ taken)) others with
      | error fault => rfl
      | ok rest => simp [pure, Except.pure, Tally.merge_assoc]

/-- A node that is kept is refused where its name is taken. -/
def RefusesTaken (parent : Option Path)
    (visit : List String → Node → Except Fault (Option Node × Tally)) : Prop :=
  ∀ taken taken' node kept tally, visit taken node = .ok (some kept, tally) →
    kept.name ∈ taken' →
      visit taken' node = .error (.build (.duplicateNode (Rewriter.placeUnder parent kept.name)))

theorem visit_refusesTaken (levels : Nat) (parent : Option Path) :
    RefusesTaken parent (Walk.visit steps tree levels parent) := by
  intro taken taken' node left tally hvisit htaken
  cases levels with
  | zero => cases hvisit
  | succ levels =>
      rw [Walk.visit] at hvisit ⊢
      obtain ⟨answer, hanswer, hvisit⟩ := bind_eq_ok.mp hvisit
      rw [hanswer, ok_bind]
      cases answer with
      | none => cases hvisit
      | some kept =>
          dsimp only at hvisit ⊢
          split at hvisit
          next => cases hvisit
          next =>
            obtain ⟨fates, -, hvisit⟩ := bind_eq_ok.mp hvisit
            obtain ⟨⟨children, below⟩, -, hvisit⟩ := bind_eq_ok.mp hvisit
            cases hvisit
            exact if_pos htaken

theorem siblings_free (hminds : MindsNames visit) {taken : List String}
    {nodes kept : List Node} {tally : Tally}
    (hsiblings : siblings visit taken nodes = .ok (kept, tally)) :
    ∀ node ∈ kept, node.name ∉ taken := by
  induction nodes generalizing taken kept tally with
  | nil =>
      cases hsiblings
      simp
  | cons node rest ih =>
      obtain ⟨left, first, others, more, hleft, hothers, rfl, rfl⟩ :=
        siblings_cons_eq_ok.mp hsiblings
      intro other hother
      rcases List.mem_append.mp hother with hfirst | hlater
      · exact ((hminds _ _ _ _).mp hleft).2 other (Option.mem_toList.mp hfirst)
      · exact fun hmem => ih hothers other hlater (List.mem_append_right _ hmem)

/-- Siblings that come through by themselves fail at the first one that is kept under a
name that is taken. -/
theorem siblings_refused {parent : Option Path} (hminds : MindsNames visit)
    (hrefuses : RefusesTaken parent visit) {taken taken' : List String}
    {nodes before after : List Node} {root : Node} {tally : Tally}
    (hsiblings : siblings visit taken nodes = .ok (before ++ root :: after, tally))
    (htaken : root.name ∈ taken') (hfree : ∀ node ∈ before, node.name ∉ taken') :
    siblings visit taken' nodes =
      .error (.build (.duplicateNode (Rewriter.placeUnder parent root.name))) := by
  induction nodes generalizing taken taken' before tally with
  | nil => simp [siblings] at hsiblings
  | cons node rest ih =>
      obtain ⟨left, first, others, more, hleft, hothers, hkept, -⟩ :=
        siblings_cons_eq_ok.mp hsiblings
      have hempty := ((hminds _ _ _ _).mp hleft).1
      cases left with
      | none =>
          have hleft' := (hminds taken' node none first).mpr ⟨hempty, by simp⟩
          rw [Option.toList_none, List.nil_append] at hkept
          rw [siblings, hleft', ok_bind]
          simp only [Option.toList_none, List.map_nil, List.nil_append]
          rw [ih (hkept ▸ hothers) htaken hfree, error_bind]
      | some one =>
          cases before with
          | nil =>
              -- The node is the one that is refused.
              obtain ⟨rfl, rfl⟩ : root = one ∧ after = others := by simpa using hkept
              rw [siblings, hrefuses _ _ _ _ _ hleft htaken, error_bind]
          | cons other before =>
              obtain ⟨rfl, rfl⟩ : other = one ∧ before ++ root :: after = others := by
                simpa using hkept
              obtain ⟨hother, hbefore⟩ := List.forall_mem_cons.mp hfree
              have hleft' := (hminds taken' node (some other) first).mpr
                ⟨hempty, by simpa using hother⟩
              rw [siblings, hleft', ok_bind]
              simp only [Option.toList_some, List.map_cons, List.map_nil, List.singleton_append]
              have hlater : ∀ later ∈ before, later.name ∉ other.name :: taken' := by
                intro later hlater hmem
                rcases List.mem_cons.mp hmem with heq | hold
                · exact siblings_free hminds hothers later (List.mem_append_left _ hlater)
                    (by simp [heq])
                · exact hbefore later hlater hold
              rw [ih hothers (List.mem_cons_of_mem _ htaken) hlater, error_bind]

/-- Siblings that come through in two groups come through side by side, unless one of the
second group is kept under a name of the first one. -/
theorem siblings_append_eq {parent : Option Path} (hminds : MindsNames visit)
    (hrefuses : RefusesTaken parent visit) {nodes nodes' kept kept' : List Node}
    {tally tally' : Tally} (hsiblings : siblings visit [] nodes = .ok (kept, tally))
    (hsiblings' : siblings visit [] nodes' = .ok (kept', tally')) :
    siblings visit [] (nodes ++ nodes') =
      match kept'.find? fun node => node.name ∈ kept.map Node.name with
      | none => .ok (kept ++ kept', tally.merge tally')
      | some node =>
          .error (.build (.duplicateNode (Rewriter.placeUnder parent node.name))) := by
  rw [siblings_append hsiblings]
  cases hfound : kept'.find? fun node => node.name ∈ kept.map Node.name with
  | none =>
      have hfree : ∀ node ∈ kept', node.name ∈ (kept.map Node.name).reverse ++ [] →
          node.name ∈ [] := by
        intro node hnode hmem
        have hnone := List.find?_eq_none.mp hfound node hnode
        simp_all
      rw [siblings_of_taken hminds hfree hsiblings', ok_bind]
  | some node =>
      obtain ⟨htaken, before, after, rfl, hfree⟩ := List.find?_eq_some_iff_append.mp hfound
      rw [siblings_refused hminds hrefuses hsiblings' (by simpa using htaken)
        (by simpa using hfree), error_bind]

end Walk

/-! ## Whole rewrites -/

namespace Rewriter

variable {steps : List PureStep}

/-- What local steps make of the roots of two forests side by side is what they make of
each of the forests, side by side, and the tallies add up; but where the second forest
keeps a root under a name that the first one keeps, the rewrite fails at the first such
root. -/
theorem apply_append (hsteps : steps ≠ []) (hlocal : ∀ step ∈ steps, step.Local)
    {first second : Forest} (hfirst : first.Placed ∧ first.Distinct)
    (hsecond : second.Placed ∧ second.Distinct) {rewriter : Rewriter} {made made' : Outcome}
    (hmade : rewriter.apply steps first = .ok made)
    (hmade' : rewriter.apply steps second = .ok made') :
    rewriter.apply steps (.ofRoots (first.roots ++ second.roots)) =
      match made'.forest.roots.find? fun root => root.name ∈ made.forest.roots.map Node.name with
      | none => .ok
          { forest := ⟨made.forest.roots ++ made'.forest.roots⟩,
            tally := made.tally.merge made'.tally }
      | some root => .error (.build (.duplicateNode (.single root.name))) := by
  have hsettle {forest : Forest} (hforest : forest.Distinct) :
      Walk.settle forest steps = .ok (forest, 0) :=
    Walk.settle_self (Forest.same_self hforest) fun step hstep =>
      (hlocal step hstep).rule.onTree forest
  have hroots : Forest.ofRoots (first.roots ++ second.roots) = ⟨first.roots ++ second.roots⟩ := by
    have hplaced := congrArg₂ (fun one other : Forest => Forest.mk (one.roots ++ other.roots))
      hfirst.1 hsecond.1
    simpa [Forest.ofRoots] using hplaced
  have hdistinct : Forest.Distinct ⟨first.roots ++ second.roots⟩ :=
    fun root hroot => (List.mem_append.mp hroot).elim (hfirst.2 root) (hsecond.2 root)
  have hvisit (forest : Forest) :=
    (Walk.sameBelow_local hlocal forest ⟨first.roots ++ second.roots⟩).visit_eq rewriter.levels
  obtain ⟨hleft, hclash⟩ := (apply_eq_ok_iff hsteps (hsettle hfirst.2)).mp hmade
  obtain ⟨hleft', hclash'⟩ := (apply_eq_ok_iff hsteps (hsettle hsecond.2)).mp hmade'
  rw [hvisit] at hleft hleft'
  rw [hroots, apply_of_settle rewriter hsteps (hsettle hdistinct),
    Walk.siblings_append_eq (Walk.visit_mindsNames _ _ _ _) (Walk.visit_refusesTaken _ _)
      hleft hleft']
  cases made'.forest.roots.find? fun root => root.name ∈ made.forest.roots.map Node.name with
  | some root => rfl
  | none =>
      have hunclashed : Forest.memberClash ⟨made.forest.roots ++ made'.forest.roots⟩ = none := by
        rw [Forest.memberClash_eq_none_iff] at hclash hclash' ⊢
        intro node hnode
        rw [Forest.nodes, List.flatMap_append] at hnode
        exact (List.mem_append.mp hnode).elim (hclash node) (hclash' node)
      simp only [ok_bind, hunclashed]
      exact congrArg (fun tally => Except.ok (Outcome.mk _ tally)) (Tally.zero_merge _)

/-- Roots of one name are renamed; nodes below them are not. -/
def bedSteps : List PureStep :=
  [{ name := "rename", guard := some (.and .root (.nodeNamed "a")), rule := .renameNode "b" }]

theorem bedSteps_local : ∀ step ∈ bedSteps, step.Local :=
  List.forall_mem_singleton.mpr
    ⟨⟨fun _ => rfl, fun _ _ _ => rfl, fun _ _ _ _ => rfl⟩, fun _ _ _ => rfl, fun _ _ _ _ => rfl⟩

def bed : Forest :=
  .ofRoots [(Node.named "a").withChild (.named "a"), .named "d"]

/-- What the steps make of the bed. -/
def bedDone : Outcome where
  forest := .ofRoots [(Node.named "b").withChild (.named "a"), .named "d"]
  tally := { nodesVisited := 3, nodesRenamed := 1 }

def border (names : List String) : Forest :=
  .ofRoots (names.map Node.named)

/-- Beside roots of other names the bed becomes what it becomes alone; beside a root of
the new name it does not come through. -/
theorem apply_append_beds :
    (Rewriter.mk .refuse 3).apply bedSteps (.ofRoots (bed.roots ++ (border ["e"]).roots)) = .ok
        { forest := ⟨bedDone.forest.roots ++ (border ["e"]).roots⟩,
          tally := { nodesVisited := 4, nodesRenamed := 1 } } ∧
      (Rewriter.mk .refuse 3).apply bedSteps (.ofRoots (bed.roots ++ (border ["e", "b"]).roots)) =
        .error (.build (.duplicateNode (.single "b"))) := by
  have hsteps : bedSteps ≠ [] := List.cons_ne_nil _ _
  have hbed : (Rewriter.mk .refuse 3).apply bedSteps bed = .ok bedDone :=
    (apply_eq_rewrite _ hsteps bed).trans rfl
  have hplain : (Rewriter.mk .refuse 3).apply bedSteps (border ["e"]) =
      .ok { forest := border ["e"], tally := { nodesVisited := 1 } } :=
    (apply_eq_rewrite _ hsteps _).trans rfl
  have hclash : (Rewriter.mk .refuse 3).apply bedSteps (border ["e", "b"]) =
      .ok { forest := border ["e", "b"], tally := { nodesVisited := 2 } } :=
    (apply_eq_rewrite _ hsteps _).trans rfl
  have hfirst : bed.Placed ∧ bed.Distinct := ⟨Forest.placed_ofRoots _, by decide⟩
  have hsecond : (border ["e"]).Placed ∧ (border ["e"]).Distinct :=
    ⟨Forest.placed_ofRoots _, by decide⟩
  have hthird : (border ["e", "b"]).Placed ∧ (border ["e", "b"]).Distinct :=
    ⟨Forest.placed_ofRoots _, by decide⟩
  exact ⟨apply_append hsteps bedSteps_local hfirst hsecond hbed hplain,
    apply_append hsteps bedSteps_local hfirst hthird hbed hclash⟩

end Rewriter

end TreePass
