import TreePass.Proofs.Rewrite.Correspondence
import TreePass.Proofs.Rewrite.Refinement

/-!
# Composites

A composite runs its rules one after the other, and so do steps in a list. How rules
are grouped into composites therefore makes no difference to what they do. A step with a
composite does what a list of steps with its rules does, as long as all of them have one
guard which does not look at the forest between them; but it changes the forest as a
whole in one go, where each of the steps counts its own change.
-/

namespace TreePass

namespace Rule

variable {m : Type → Type} [Monad m]

/-- The rules do the same to everything. -/
structure Agrees (rule other : Rule m) : Prop where
  onTree : ∀ forest, rule.onTree forest = other.onTree forest
  onNode : ∀ forest node, rule.onNode forest node = other.onNode forest node
  onMember : ∀ forest node member, rule.onMember forest node member =
    other.onMember forest node member

/-- The second rule is the first one with some rules in a row of a composite put into a
composite of their own. -/
inductive Regroups : Rule m → Rule m → Prop where
  | group (name inner : String) (before run after : List (Rule m)) :
      Regroups (.composite name (before ++ run ++ after))
        (.composite name (before ++ .composite inner run :: after))
  | within (name : String) (before after : List (Rule m)) {rule other : Rule m}
      (hrule : Regroups rule other) :
      Regroups (.composite name (before ++ rule :: after))
        (.composite name (before ++ other :: after))

section Lists

variable (forest : Forest) (rule : Rule m) (rest before after : List (Rule m))

theorem onNodeAll_cons (node : Node) : onNodeAll forest node (rule :: rest) =
    rule.onNode forest node >>= fun left =>
      left.elim (pure none) fun next => onNodeAll forest next rest := by
  rw [onNodeAll]
  congr
  funext left
  cases left <;> rfl

theorem onMemberAll_cons (node : Node) (member : Member) :
    onMemberAll forest node member (rule :: rest) =
      rule.onMember forest node member >>= fun left =>
        left.elim (pure none) fun next => onMemberAll forest node next rest := by
  rw [onMemberAll]
  congr
  funext left
  cases left <;> rfl

variable [LawfulMonad m]

/-- What removes its subject lets nothing else come to it, however the rest is grouped. -/
theorem bind_elim_bind {α : Type} (work : m (Option α)) (f g : α → m (Option α)) :
    (work >>= fun left => left.elim (pure none) f) >>= (fun left => left.elim (pure none) g) =
      work >>= fun left => left.elim (pure none) fun next =>
        f next >>= fun left => left.elim (pure none) g := by
  rw [bind_assoc]
  congr
  funext left
  cases left with
  | none => simp
  | some next => rfl

theorem onTreeAll_append : onTreeAll forest (before ++ after) =
    onTreeAll forest before >>= fun next => onTreeAll next after := by
  induction before generalizing forest with
  | nil => simp [onTreeAll]
  | cons rule rest ih => simp [onTreeAll, ih]

theorem onNodeAll_append (node : Node) : onNodeAll forest node (before ++ after) =
    onNodeAll forest node before >>= fun left =>
      left.elim (pure none) fun next => onNodeAll forest next after := by
  induction before generalizing node with
  | nil => simp [onNodeAll]
  | cons rule rest ih =>
      rw [List.cons_append, onNodeAll_cons, onNodeAll_cons, bind_elim_bind]
      simp only [ih]

theorem onMemberAll_append (node : Node) (member : Member) :
    onMemberAll forest node member (before ++ after) =
      onMemberAll forest node member before >>= fun left =>
        left.elim (pure none) fun next => onMemberAll forest node next after := by
  induction before generalizing member with
  | nil => simp [onMemberAll]
  | cons rule rest ih =>
      rw [List.cons_append, onMemberAll_cons, onMemberAll_cons, bind_elim_bind]
      simp only [ih]

variable (name : String) (rules : List (Rule m))

/-- A composite among rules stands for its own rules. -/
theorem onTreeAll_composite : onTreeAll forest (.composite name rules :: rest) =
    onTreeAll forest (rules ++ rest) := by
  rw [onTreeAll_append, onTreeAll, onTree]

theorem onNodeAll_composite (node : Node) :
    onNodeAll forest node (.composite name rules :: rest) =
      onNodeAll forest node (rules ++ rest) := by
  rw [onNodeAll_append, onNodeAll_cons, onNode]

theorem onMemberAll_composite (node : Node) (member : Member) :
    onMemberAll forest node member (.composite name rules :: rest) =
      onMemberAll forest node member (rules ++ rest) := by
  rw [onMemberAll_append, onMemberAll_cons, onMember]

end Lists

/-- Grouping the rules of a composite changes nothing of what it does. -/
theorem Regroups.agrees [LawfulMonad m] {rule other : Rule m} (hrule : rule.Regroups other) :
    rule.Agrees other := by
  induction hrule with
  | group name inner before run after =>
      refine ⟨fun forest => ?_, fun forest node => ?_, fun forest node member => ?_⟩
      · rw [onTree, onTree, List.append_assoc, onTreeAll_append, onTreeAll_append]
        simp only [onTreeAll_composite]
      · rw [onNode, onNode, List.append_assoc, onNodeAll_append, onNodeAll_append]
        simp only [onNodeAll_composite]
      · rw [onMember, onMember, List.append_assoc, onMemberAll_append, onMemberAll_append]
        simp only [onMemberAll_composite]
  | within name before after _ ih =>
      refine ⟨fun forest => ?_, fun forest node => ?_, fun forest node member => ?_⟩
      · rw [onTree, onTree, onTreeAll_append, onTreeAll_append]
        simp only [onTreeAll, ih.onTree]
      · rw [onNode, onNode, onNodeAll_append, onNodeAll_append]
        simp only [onNodeAll_cons, ih.onNode]
      · rw [onMember, onMember, onMemberAll_append, onMemberAll_append]
        simp only [onMemberAll_cons, ih.onMember]

end Rule

theorem Step.corresponds_of_agrees {m : Type → Type} [Monad m] [MonadExceptOf Fault m]
    {step other : Step m} (hguard : step.guard = other.guard)
    (hrule : step.rule.Agrees other.rule) : step.Corresponds (.same m) other where
  guard_eq := hguard
  onTree forest _ := hrule.onTree forest
  onNode forest _ current _ := hrule.onNode forest current
  onMember forest _ node _ current _ := hrule.onMember forest node current

namespace Walk

variable {steps others : List PureStep} {tree tree' : Forest}

/-! ## Steps that do the same below the forest -/

/-- The steps do to nodes and members of the one forest what the others do to those of
the other one. -/
structure SameBelow (steps : List PureStep) (tree : Forest) (others : List PureStep)
    (tree' : Forest) : Prop where
  onNode : ∀ node, Rule.onNodeAll tree node (rulesFor steps tree (.node node)) =
    Rule.onNodeAll tree' node (rulesFor others tree' (.node node))
  onMember : ∀ before kept member,
    Rule.onMemberAll tree kept member (rulesFor steps tree (.member before member)) =
      Rule.onMemberAll tree' kept member (rulesFor others tree' (.member before member))

theorem SameBelow.fates_eq (hsame : SameBelow steps tree others tree') (before kept : Node)
    (members : List Member) :
    fates steps tree before kept members = fates others tree' before kept members := by
  induction members with
  | nil => rfl
  | cons member rest ih => rw [fates, fates, hsame.onMember, ih]

theorem SameBelow.visit_eq (hsame : SameBelow steps tree others tree') (levels : Nat) :
    visit steps tree levels = visit others tree' levels := by
  induction levels with
  | zero => rfl
  | succ levels ih =>
      funext parent taken node
      rw [visit, visit, hsame.onNode]
      simp only [hsame.fates_eq, ih]

/-! ## Steps with one guard -/

variable {single : PureStep}

theorem rulesFor_of_guard (hguard : ∀ step ∈ steps, step.guard = single.guard)
    (subject : Subject) : rulesFor steps tree subject =
      if single.admits tree subject then steps.map Step.rule else [] := by
  have hadmits : ∀ step ∈ steps, step.admits tree subject = single.admits tree subject :=
    fun step hstep => Step.admits_eq_of_guard (hguard step hstep) tree subject
  rw [rulesFor, List.filter_congr hadmits]
  cases single.admits tree subject <;> simp

theorem sameBelow_composite {name : String} (hguard : ∀ step ∈ steps, step.guard = single.guard)
    (hrule : single.rule = .composite name (steps.map Step.rule)) (tree : Forest) :
    SameBelow [single] tree steps tree := by
  have hsingle (subject : Subject) : rulesFor [single] tree subject =
      if single.admits tree subject then [single].map Step.rule else [] :=
    rulesFor_of_guard (by simp) subject
  have hsteps (subject : Subject) : rulesFor steps tree subject =
      if single.admits tree subject then steps.map Step.rule else [] :=
    rulesFor_of_guard hguard subject
  refine ⟨fun node => ?_, fun before kept member => ?_⟩
  · rw [hsingle, hsteps]
    split
    next => rw [List.map_singleton, hrule, Rule.onNodeAll_composite, List.append_nil]
    next => rfl
  · rw [hsingle, hsteps]
    split
    next => rw [List.map_singleton, hrule, Rule.onMemberAll_composite, List.append_nil]
    next => rfl

/-- Steps that always apply to a forest as a whole leave of it what their rules do. -/
theorem settle_of_admits (hsteps : ∀ step ∈ steps, ∀ forest, step.admits forest .tree = true)
    (forest : Forest) :
    (settle forest steps).map Prod.fst = Rule.onTreeAll forest (steps.map Step.rule) := by
  induction steps generalizing forest with
  | nil => rfl
  | cons step rest ih =>
      obtain ⟨hstep, hrest⟩ := List.forall_mem_cons.mp hsteps
      rw [settle, if_pos (hstep forest), List.map_cons, Rule.onTreeAll]
      cases step.rule.onTree forest with
      | error fault => rfl
      | ok next =>
          rw [ok_bind, ok_bind, ← ih hrest next]
          cases settle next rest <;> rfl

/-- Steps that never apply to a forest as a whole leave it as it is. -/
theorem settle_of_not_admits
    (hsteps : ∀ step ∈ steps, ∀ forest, step.admits forest .tree = false) (forest : Forest) :
    settle forest steps = .ok (forest, 0) := by
  induction steps with
  | nil => rfl
  | cons step rest ih =>
      obtain ⟨hstep, hrest⟩ := List.forall_mem_cons.mp hsteps
      rw [settle, hstep, if_neg Bool.false_ne_true, ih hrest]

theorem settle_composite {name : String} (hguard : ∀ step ∈ steps, step.guard = single.guard)
    (htree : ∀ guard ∈ single.guard, ∀ forest, guard.matchesTree forest = false)
    (hrule : single.rule = .composite name (steps.map Step.rule)) (forest : Forest) :
    (settle forest [single]).map Prod.fst = (settle forest steps).map Prod.fst := by
  have hadmits : ∀ step ∈ steps, ∀ forest,
      step.admits forest .tree = single.admits forest .tree :=
    fun step hstep forest => Step.admits_eq_of_guard (hguard step hstep) forest .tree
  cases hsome : single.guard with
  | none =>
      have halways (forest : Forest) : single.admits forest .tree = true := by
        rw [Step.admits, hsome]
      rw [settle_of_admits (by simpa using halways), settle_of_admits fun step hstep forest =>
        (hadmits step hstep forest).trans (halways forest), List.map_singleton, hrule,
        Rule.onTreeAll_composite, List.append_nil]
  | some guard =>
      have hnever (forest : Forest) : single.admits forest .tree = false := by
        rw [Step.admits, hsome]
        exact htree guard hsome forest
      rw [settle_of_not_admits (by simpa using hnever), settle_of_not_admits
        fun step hstep forest => (hadmits step hstep forest).trans (hnever forest)]

end Walk

/-! ## Whole rewrites -/

/-- The outcome without the count of changes of the forest as a whole. -/
def Outcome.ofVisits (outcome : Outcome) : Outcome :=
  { outcome with tally := { outcome.tally with treeRewrites := 0 } }

/-- Such an outcome depends on the steps on the forest as a whole only by what they leave. -/
theorem Walk.rewrite_ofVisits (steps : List PureStep) (levels : Nat) (forest : Forest) :
    (rewrite steps levels forest).map Outcome.ofVisits =
      (settle forest steps).map Prod.fst >>= fun tree =>
        siblings (visit steps tree levels none) [] tree.roots >>= fun left =>
          unlessFault ((Forest.memberClash ⟨left.1⟩).map Fault.build)
            { forest := ⟨left.1⟩, tally := { left.2 with treeRewrites := 0 } } := by
  rw [rewrite]
  cases settle forest steps with
  | error fault => rfl
  | ok settled =>
      obtain ⟨tree, changes⟩ := settled
      simp only [ok_bind, Except.map]
      cases siblings (visit steps tree levels none) [] tree.roots with
      | error fault => rfl
      | ok left =>
          simp only [ok_bind]
          cases Forest.memberClash ⟨left.1⟩ with
          | some fault => rfl
          | none => simp [unlessFault, pure, Except.pure, Outcome.ofVisits, Tally.merge]

/-- Steps that leave the same of the forest as a whole and do the same below it come to
one outcome, but for the count of changes of the forest as a whole. -/
theorem Walk.rewrite_ofVisits_eq {steps others : List PureStep} {forest : Forest}
    (hsettle : (settle forest steps).map Prod.fst = (settle forest others).map Prod.fst)
    (hsame : ∀ tree, SameBelow steps tree others tree) (levels : Nat) :
    (rewrite steps levels forest).map Outcome.ofVisits =
      (rewrite others levels forest).map Outcome.ofVisits := by
  rw [rewrite_ofVisits, rewrite_ofVisits, hsettle]
  simp only [(hsame _).visit_eq]

namespace Rewriter

/-- A step with a composite does what steps with its rules do, and fails where they fail,
if none of them has a guard or all have one that does not apply to the forest as a whole;
only the count of changes of the forest as a whole may differ. Grouping some of the rules
of a composite, of any depth, makes no difference at all. -/
theorem apply_composite :
    (∀ (steps : List PureStep) (single : PureStep) (name : String), steps ≠ [] →
      (∀ step ∈ steps, step.guard = single.guard) →
      (∀ guard ∈ single.guard, ∀ forest, guard.matchesTree forest = false) →
      single.rule = .composite name (steps.map Step.rule) →
      ∀ (rewriter : Rewriter) (forest : Forest),
        (rewriter.apply [single] forest).map Outcome.ofVisits =
          (rewriter.apply steps forest).map Outcome.ofVisits) ∧
    ∀ {m : Type → Type} [Monad m] [LawfulMonad m] [MonadExceptOf Fault m]
      (before after : List (Step m)) (step : Step m) (rule : Rule m), step.rule.Regroups rule →
      ∀ (rewriter : Rewriter) (forest : Forest),
        rewriter.apply (before ++ step :: after) forest =
          rewriter.apply (before ++ { step with rule } :: after) forest := by
  refine ⟨fun steps single name hsteps hguard htree hrule rewriter forest => ?_, ?_⟩
  · rw [rewriter.apply_eq_rewrite (List.cons_ne_nil _ _), rewriter.apply_eq_rewrite hsteps]
    exact Walk.rewrite_ofVisits_eq (Walk.settle_composite hguard htree hrule forest)
      (Walk.sameBelow_composite hguard hrule) rewriter.levels
  · intro m _ _ _ before after step rule hrule rewriter forest
    have hself (steps : List (Step m)) :
        List.Forall₂ (Step.Corresponds (.same m)) steps steps :=
      List.forall₂_same.mpr fun step _ =>
        Step.corresponds_of_agrees rfl ⟨fun _ => rfl, fun _ _ => rfl, fun _ _ _ => rfl⟩
    have hstep : step.Corresponds (.same m) { step with rule } :=
      Step.corresponds_of_agrees rfl hrule.agrees
    exact apply_corresponds (List.rel_append (hself before) (.cons hstep (hself after)))
      rewriter forest

/-- A root with a child. -/
def shoot : Forest :=
  .ofRoots [(Node.named "r").withChild (.named "c")]

/-- The rules add a root and take it away again, and then see to the nodes. -/
def shootSteps : List PureStep :=
  [.ofRule (.addRoot (.named "s")), .ofRule (.removeRoot "s"), .ofRule (.renameNode "t"),
    .ofRule (.setDocumentation (some "seen"))]

def shootStep : PureStep :=
  .ofRule (.composite "all" (shootSteps.map Step.rule))

def shootRegrouped : Rule (Except Fault) :=
  .composite "all" [.addRoot (.named "s"),
    .composite "middle" [.removeRoot "s", .renameNode "t"], .setDocumentation (some "seen")]

/-- In the end the composite has left the forest as a whole as it was, although two of
the steps change it. -/
theorem apply_composite_shoot :
    shootStep.rule.Regroups shootRegrouped ∧
      ((Rewriter.mk .refuse 3).apply [shootStep] shoot).map Outcome.ofVisits =
        ((Rewriter.mk .refuse 3).apply shootSteps shoot).map Outcome.ofVisits ∧
      ((Rewriter.mk .refuse 3).apply [shootStep] shoot).map (·.tally.treeRewrites) = .ok 0 ∧
      ((Rewriter.mk .refuse 3).apply shootSteps shoot).map (·.tally.treeRewrites) = .ok 2 ∧
      (Rewriter.mk .refuse 3).apply [shootStep] shoot =
        (Rewriter.mk .refuse 3).apply [{ shootStep with rule := shootRegrouped }] shoot := by
  have hgroups : shootStep.rule.Regroups shootRegrouped :=
    .group "all" "middle" [.addRoot (.named "s")] [.removeRoot "s", .renameNode "t"]
      [.setDocumentation (some "seen")]
  refine ⟨hgroups, ?_, by decide +kernel, by decide +kernel, ?_⟩
  · exact apply_composite.1 shootSteps shootStep "all" (List.cons_ne_nil _ _)
      (by simp [shootSteps, shootStep, Step.ofRule]) (fun _ hguard => nomatch hguard) rfl _ _
  · exact apply_composite.2 [] [] shootStep shootRegrouped hgroups _ _

end Rewriter

end TreePass
