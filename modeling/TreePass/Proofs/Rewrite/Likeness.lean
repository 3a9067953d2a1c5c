import TreePass.Proofs.Rewrite.Order
import TreePass.Proofs.Rewrite.Refinement
import TreePass.Proofs.Rule.Plain
import TreePass.Proofs.Staging.Named

/-!
# Rewrites respect equality

Plain steps make the same of forests that are the same. The forests are twins, and
what is walked of one is walked of the other, if in another order; what is left is
alike, and as much is counted. If the walk of one fails, then so does that of the
other, though perhaps at another node.
-/

namespace TreePass

/-- Two rewrites make the same forest and count the same, or they fail both at two
nodes of one path, or both at two members of one name. -/
inductive SameAnswer : Except Fault Outcome → Except Fault Outcome → Prop where
  | made {outcome outcome' : Outcome} (hsame : outcome.forest.same outcome'.forest = true)
      (htally : outcome.tally = outcome'.tally) : SameAnswer (.ok outcome) (.ok outcome')
  | nodeClash (path path' : Path) :
      SameAnswer (.error (.build (.duplicateNode path))) (.error (.build (.duplicateNode path')))
  | memberClash (path : Path) (member : String) (path' : Path) (member' : String) :
      SameAnswer (.error (.build (.duplicateMember path member)))
        (.error (.build (.duplicateMember path' member')))

namespace Walk

variable {steps : List PureStep} {tree tree' : Forest}

/-! ## Folds over steps -/

/-- The steps on the forest as a whole settle twins to twins, and as many of them
change the one as the other. -/
theorem settle_twins (hsteps : ∀ step ∈ steps, step.Plain) {forest forest' : Forest}
    (hforest : forest.Twin forest') :
    ∃ settled settled' changes, settle forest steps = .ok (settled, changes) ∧
      settle forest' steps = .ok (settled', changes) ∧ settled.Twin settled' := by
  induction steps generalizing forest forest' with
  | nil => exact ⟨forest, forest', 0, rfl, rfl, hforest⟩
  | cons step rest ih =>
      obtain ⟨hstep, hrest⟩ := List.forall_mem_cons.mp hsteps
      rw [settle, settle, hstep.admits_eq hforest .tree]
      split
      next =>
        obtain ⟨next, next', hnext, hnext', htwin⟩ := hstep.rule.onTree_twins hforest
        obtain ⟨settled, settled', changes, hsettled, hsettled', htwins⟩ := ih hrest htwin
        refine ⟨settled, settled', changes + if next.same forest then 0 else 1, ?_, ?_, htwins⟩
        · rw [hnext]
          simp only [pure, Except.pure, ok_bind, hsettled]
        · rw [hnext', hforest.same_eq htwin]
          simp only [pure, Except.pure, ok_bind, hsettled']
      next => exact ih hrest hforest

theorem rulesFor_eq (hsteps : ∀ step ∈ steps, step.Plain) (htree : tree.Twin tree')
    {subject subject' : Subject} (hsubject : subject.Twin subject') :
    rulesFor steps tree subject = rulesFor steps tree' subject' := by
  rw [rulesFor, rulesFor]
  refine congrArg (List.map Step.rule) (List.filter_congr fun step hstep => ?_)
  exact (hsteps step hstep).admits_eq htree hsubject

theorem rulesFor_plain (hsteps : ∀ step ∈ steps, step.Plain) (subject : Subject) :
    ∀ rule ∈ rulesFor steps tree subject, rule.Plain := by
  intro rule hrule
  obtain ⟨step, hstep, -, rfl⟩ := exists_of_mem_rulesFor hrule
  exact (hsteps step hstep).rule

/-- What is left of a member is the same below twins. -/
theorem fates_twins (hsteps : ∀ step ∈ steps, step.Plain) (htree : tree.Twin tree')
    {before before' : Node} (hbefore : before.Twin before') (kept kept' : Node) :
    ∃ fate : Member → Option Member, ∀ members,
      fates steps tree before kept members = .ok (members.map fun member => (member, fate member)) ∧
      fates steps tree' before' kept' members =
        .ok (members.map fun member => (member, fate member)) := by
  have hleft (member : Member) : ∃ left, ∀ forest node,
      Rule.onMemberAll forest node member (rulesFor steps tree (.member before member)) =
        .ok left :=
    Rule.onMemberAll_eq (fun rule hrule => (rulesFor_plain hsteps _ rule hrule).onMember_eq) member
  choose fate hfate using hleft
  refine ⟨fate, fun members => ?_⟩
  induction members with
  | nil => exact ⟨rfl, rfl⟩
  | cons member rest ih =>
      have hrules := rulesFor_eq hsteps htree (.member hbefore member)
      rw [fates, fates, ← hrules, hfate, hfate, ih.1, ih.2]
      exact ⟨rfl, rfl⟩

theorem missing_perm {names names' others others' : List String} (hnames : names.Perm names')
    (hothers : others.Perm others') : missing names others = missing names' others' := by
  rw [missing, missing, hnames.countP_eq]
  exact List.countP_congr fun name _ => by simp [hothers.mem_iff]

theorem tallyOf_twins {before before' kept kept' : Node} (hbefore : before.Twin before')
    (hkept : kept.Twin kept') {fates fates' : List (Member × Option Member)}
    (hfates : fates.Perm fates') :
    tallyOf before kept fates = tallyOf before' kept' fates' := by
  simp only [tallyOf, hbefore.name_eq, hkept.name_eq, hfates.countP_eq,
    missing_perm hbefore.childNames_perm hkept.childNames_perm,
    missing_perm hkept.childNames_perm hbefore.childNames_perm,
    missing_perm hbefore.memberNames_perm hkept.memberNames_perm,
    missing_perm hkept.memberNames_perm hbefore.memberNames_perm]

/-! ## Visits -/

section Siblings

variable {visit visit' : List String → Node → Except Fault (Option Node × Tally)}

/-- Where a visit of a node comes through, the other visit of a twin does so, leaves
what is alike, and counts the same. -/
def LeavesAlike (visit visit' : List String → Node → Except Fault (Option Node × Tally)) : Prop :=
  ∀ ⦃taken node node' left tally⦄, node.Twin node' → visit taken node = .ok (left, tally) →
    ∃ left', visit' taken node' = .ok (left', tally) ∧ Option.Rel Node.Alike left left'

/-- Siblings that are twins one by one leave alike nodes one by one. -/
theorem siblings_twins (hvisit : LeavesAlike visit visit') {nodes nodes' : List Node}
    (hnodes : List.Forall₂ Node.Twin nodes nodes') {taken : List String} {kept : List Node}
    {tally : Tally}
    (hsiblings : siblings visit taken nodes = .ok (kept, tally)) :
    ∃ kept', siblings visit' taken nodes' = .ok (kept', tally) ∧
      List.Forall₂ Node.Alike kept kept' := by
  induction hnodes generalizing taken kept tally with
  | nil =>
      cases hsiblings
      exact ⟨[], rfl, .nil⟩
  | cons hnode _ ih =>
      obtain ⟨left, first, others, more, hleft, hothers, rfl, rfl⟩ :=
        siblings_cons_eq_ok.mp hsiblings
      obtain ⟨left', hleft', halike⟩ := hvisit hnode hleft
      have hnames : left.toList.map Node.name = left'.toList.map Node.name := by
        cases halike with
        | none => rfl
        | some halike => exact congrArg (fun name => [name]) (Node.Alike.name_eq halike)
      rw [hnames] at hothers
      obtain ⟨others', hothers', hrest⟩ := ih hothers
      refine ⟨_, siblings_cons_eq_ok.mpr
        ⟨left', first, others', more, hleft', hothers', rfl, rfl⟩, ?_⟩
      cases halike with
      | none => exact hrest
      | some halike => exact .cons halike hrest

/-- The children of twins may come in another order, and so may the alike nodes that
they leave. -/
theorem children_twins (hvisit : LeavesAlike visit visit') (hminds : MindsNames visit)
    {kept kept' : Node} (hkept : kept.Twin kept') {children : List Node} {tally : Tally}
    (hchildren : siblings visit [] (Keyed.values kept.children) = .ok (children, tally)) :
    ∃ ordered children', siblings visit' [] (Keyed.values kept'.children) =
        .ok (children', tally) ∧
      children.Perm ordered ∧ List.Forall₂ Node.Alike ordered children' := by
  obtain ⟨middle, hperm, hmiddle⟩ := Keyed.exists_perm_forall₂ hkept.distinct.children
    hkept.other_distinct.children hkept.child
  have htwins : List.Forall₂ Node.Twin (Keyed.values middle) (Keyed.values kept'.children) :=
    List.forall₂_map_left_iff.mpr (List.forall₂_map_right_iff.mpr
      (hmiddle.imp fun _ _ hentry => hentry.2))
  obtain ⟨ordered, hordered, hreordered⟩ :=
    siblings_perm hminds (hperm.map Prod.snd) hchildren
  obtain ⟨children', hchildren', halike⟩ := siblings_twins hvisit htwins hordered
  exact ⟨ordered, children', hchildren', hreordered, halike⟩

end Siblings

/-- Nodes that are put together from the same members and alike children, in whatever
order, are alike. -/
theorem assemble_alike {kept kept' : Node} (hkept : kept.Twin kept') (path : Path)
    {members members' : List Member} (hmembers : members.Perm members')
    {children middle children' : List Node} (hnodup : (children.map Node.name).Nodup)
    (hperm : children.Perm middle) (halike : List.Forall₂ Node.Alike middle children') :
    (assemble kept path members children).Alike (assemble kept' path members' children') := by
  refine .of_children ?_ fun key => ?_
  · simp only [Node.face, assemble, hkept.name_eq, hkept.documentation_eq, hkept.attributes_eq,
      Multiset.coe_eq_coe.mpr (hmembers.map fun member => (member.name, member))]
  · have hchildren : Keyed.Distinct (children.map fun child => (child.name, child)) := by
      rwa [Keyed.Distinct, Keyed.keys_map_label]
    have hmiddle : Keyed.Distinct (middle.map fun child => (child.name, child)) := by
      rwa [Keyed.Distinct, Keyed.keys_map_label, ← (hperm.map Node.name).nodup_iff]
    have hsame := (Keyed.perm_iff_get? hchildren hmiddle).mp (hperm.map _) key
    rw [Node.child?, Node.child?, assemble, assemble, hsame]
    clear hperm hnodup hchildren hmiddle hsame
    induction halike with
    | nil => exact .none
    | cons halike _ ih =>
        rw [List.map_cons, List.map_cons, Keyed.get?_cons, Keyed.get?_cons,
          Node.Alike.name_eq halike]
        split
        next => exact .some halike
        next => exact ih

/-- What a visit leaves of twins is alike, and so is what it counts. -/
theorem visit_twins (hsteps : ∀ step ∈ steps, step.Plain) (htree : tree.Twin tree')
    (levels : Nat) (parent : Option Path) :
    LeavesAlike (visit steps tree levels parent) (visit steps tree' levels parent) := by
  intro taken node node' left tally hnode hvisit
  induction levels generalizing parent taken node node' left tally with
  | zero => cases hvisit
  | succ levels ih =>
      have hrules := rulesFor_eq hsteps htree (.node hnode)
      have hplain : ∀ rule ∈ rulesFor steps tree (.node node), rule.Plain :=
        rulesFor_plain hsteps _
      obtain ⟨found, found', hfound, hfound', htwins⟩ := Rule.onNodeAll_twins
        (fun rule hrule _ _ hnode => (hplain rule hrule).onNode_twins tree tree' hnode) hnode
      rw [visit, hfound] at hvisit
      rw [visit, ← hrules, hfound']
      cases htwins with
      | none =>
          cases hvisit
          exact ⟨none, rfl, .none⟩
      | @some kept kept' hkept =>
          simp only [pure, Except.pure, ok_bind] at hvisit ⊢
          rw [← hkept.name_eq]
          split at hvisit
          next => cases hvisit
          next hnew =>
            obtain ⟨fate, hfate⟩ := fates_twins hsteps htree hnode kept kept'
            rw [(hfate _).1, ok_bind] at hvisit
            obtain ⟨⟨children, below⟩, hchildren, hvisit⟩ := bind_eq_ok.mp hvisit
            cases hvisit
            rw [if_neg hnew, (hfate _).2, ok_bind]
            obtain ⟨ordered, children', hchildren', hreordered, halike⟩ :=
              children_twins (ih _) (visit_mindsNames steps tree levels _) hkept hchildren
            have hfates : ((Keyed.values kept.members).map fun member => (member, fate member)).Perm
                ((Keyed.values kept'.members).map fun member => (member, fate member)) :=
              (hkept.members_perm.map Prod.snd).map _
            have hnodup : (children.map Node.name).Nodup :=
              (siblings_placed (fun _ _ _ _ hkept => visit_placed hkept) hchildren).2.1
            refine ⟨_, ?_, .some
              (assemble_alike hkept _ (hfates.filterMap Prod.snd) hnodup hreordered halike)⟩
            rw [hchildren', ok_bind, tallyOf_twins hnode hkept hfates]

/-- What the walk leaves of twin forests is alike, root by root. -/
theorem roots_twins (hsteps : ∀ step ∈ steps, step.Plain) (htree : tree.Twin tree')
    {levels : Nat} {kept : List Node} {tally : Tally}
    (hkept : siblings (visit steps tree levels none) [] tree.roots = .ok (kept, tally)) :
    ∃ kept', siblings (visit steps tree' levels none) [] tree'.roots = .ok (kept', tally) ∧
      List.Forall₂ Node.Alike kept kept' :=
  siblings_twins (visit_twins hsteps htree levels none) htree hkept

/-! ## Faults -/

/-- What a walk of plain steps may fail at. -/
def AtNode (fault : Fault) : Prop :=
  fault = .tooDeep ∨ ∃ path, fault = .build (.duplicateNode path)

theorem siblings_fails {visit : List String → Node → Except Fault (Option Node × Tally)}
    {nodes : List Node} {taken : List String} {fault : Fault}
    (hvisit : ∀ node ∈ nodes, ∀ taken fault, visit taken node = .error fault → AtNode fault)
    (hfault : siblings visit taken nodes = .error fault) : AtNode fault := by
  induction nodes generalizing taken with
  | nil => cases hfault
  | cons node rest ih =>
      obtain ⟨hnode, hrest⟩ := List.forall_mem_cons.mp hvisit
      rw [siblings] at hfault
      rcases bind_eq_error.mp hfault with hfirst | ⟨⟨left, tally⟩, -, hfault⟩
      · exact hnode taken fault hfirst
      · rcases bind_eq_error.mp hfault with hothers | ⟨⟨others, more⟩, -, hfault⟩
        · exact ih hrest hothers
        · cases hfault

theorem visit_fails (hsteps : ∀ step ∈ steps, step.Plain) (htree : tree.Distinct)
    {levels : Nat} {parent : Option Path} {taken : List String} {node : Node} {fault : Fault}
    (hnode : node.Distinct)
    (hfault : visit steps tree levels parent taken node = .error fault) : AtNode fault := by
  induction levels generalizing parent taken node fault with
  | zero =>
      cases hfault
      exact .inl rfl
  | succ levels ih =>
      have hplain : ∀ rule ∈ rulesFor steps tree (.node node), rule.Plain :=
        rulesFor_plain hsteps _
      obtain ⟨found, found', hfound, -, htwins⟩ := Rule.onNodeAll_twins
        (fun rule hrule _ _ hnode => (hplain rule hrule).onNode_twins tree tree hnode)
        (.self hnode)
      rw [visit, hfound] at hfault
      cases htwins with
      | none => cases hfault
      | @some kept kept' hkept =>
          simp only [pure, Except.pure, ok_bind] at hfault
          split at hfault
          next =>
            cases hfault
            exact .inr ⟨_, rfl⟩
          next =>
            obtain ⟨fate, hfate⟩ := fates_twins hsteps (.self htree) (.self hnode) kept kept
            rw [(hfate _).1, ok_bind] at hfault
            rcases bind_eq_error.mp hfault with hchildren | ⟨⟨children, below⟩, -, hfault⟩
            · refine siblings_fails (fun child hchild taken fault hleft => ?_) hchildren
              obtain ⟨entry, hentry, rfl⟩ := List.mem_map.mp hchild
              exact ih (hkept.distinct.child hentry) hleft
            · cases hfault

/-! ## Members of one name -/

/-- No node in the node has two members of one name. -/
def Unclashed (node : Node) : Prop :=
  ∀ inner ∈ node.preorder, ((Keyed.values inner.members).map Member.name).Nodup

theorem memberClash_eq_none_iff {roots : List Node} :
    Forest.memberClash ⟨roots⟩ = none ↔ ∀ root ∈ roots, Unclashed root := by
  rw [Forest.memberClash_eq_none_iff]
  simp only [Forest.nodes, List.mem_flatMap, Unclashed]
  constructor
  · intro hnodes root hroot inner hinner
    exact hnodes inner ⟨root, hroot, hinner⟩
  · rintro hroots inner ⟨root, hroot, hinner⟩
    exact hroots root hroot inner hinner

theorem Unclashed.of_alike {node node' : Node} {path : Path} (hnode : Unclashed node)
    (halike : node.Alike node') (hplaced : node'.PlacedAt path) : Unclashed node' := by
  intro inner' hinner'
  obtain ⟨keys, hkeys⟩ := hplaced.exists_descend hinner'
  have hfaces := halike keys
  rw [hkeys, Option.map_some, Option.map_eq_some_iff] at hfaces
  obtain ⟨inner, hinner, hface⟩ := hfaces
  have hmembers : inner.members.Perm inner'.members :=
    Multiset.coe_eq_coe.mp (congrArg Face.members hface)
  refine ((hmembers.map Prod.snd).map Member.name).nodup_iff.mp ?_
  exact hnode inner (Node.mem_preorder_of_descend hinner)

theorem Unclashed.distinct {node : Node} {path : Path} (hnode : Unclashed node)
    (hplaced : node.PlacedAt path) : node.Distinct := by
  intro inner hinner
  obtain ⟨place, hinside⟩ := hplaced.of_mem hinner
  have hnames := hnode inner hinner
  cases hinside with
  | intro _ hmembers _ hchildren _ =>
      rw [Keyed.map_label_values hmembers] at hnames
      exact ⟨hnames, hchildren⟩

theorem unclashed_of_alike {roots roots' : List Node}
    (halike : List.Forall₂ Node.Alike roots roots')
    (hplaced' : ∀ root ∈ roots', root.PlacedAt (.single root.name))
    (hunclashed : ∀ root ∈ roots, Unclashed root) : ∀ root ∈ roots', Unclashed root := by
  induction halike with
  | nil => simp
  | cons hroot _ ih =>
      obtain ⟨hplace', hplaces'⟩ := List.forall_mem_cons.mp hplaced'
      obtain ⟨hfirst, hrest⟩ := List.forall_mem_cons.mp hunclashed
      exact List.forall_mem_cons.mpr ⟨hfirst.of_alike hroot hplace', ih hplaces' hrest⟩

/-- Alike roots are the same forest if no two members have one name. -/
theorem same_of_alike {roots roots' : List Node} (halike : List.Forall₂ Node.Alike roots roots')
    (hplaced : ∀ root ∈ roots, root.PlacedAt (.single root.name))
    (hplaced' : ∀ root ∈ roots', root.PlacedAt (.single root.name))
    (hunclashed : ∀ root ∈ roots, Unclashed root) :
    Forest.same ⟨roots⟩ ⟨roots'⟩ = true := by
  have hunclashed' := unclashed_of_alike halike hplaced' hunclashed
  refine Forest.sameRoots_iff.mpr (forall₂_of_mem ?_ halike)
  intro root hroot root' hroot' hsame
  exact Node.same_of_alike ((hunclashed root hroot).distinct (hplaced root hroot))
    ((hunclashed' root' hroot').distinct (hplaced' root' hroot')) hsame

end Walk

namespace Rewriter

open Walk

theorem fault_of_memberClash {forest : Forest} {fault : BuildFault}
    (hclash : forest.memberClash = some fault) :
    ∃ path member, fault = .duplicateMember path member := by
  obtain ⟨node, -, hnode⟩ := List.exists_of_findSome?_eq_some hclash
  obtain ⟨member, -, rfl⟩ := Option.map_eq_some_iff.mp hnode
  exact ⟨node.path, member, rfl⟩

/-- Walks that end leave the same forest, or members of one name in both. -/
theorem sameAnswer_of_alike {roots roots' : List Node}
    (halike : List.Forall₂ Node.Alike roots roots')
    (hplaced : ∀ root ∈ roots, root.PlacedAt (.single root.name))
    (hplaced' : ∀ root ∈ roots', root.PlacedAt (.single root.name)) (tally : Tally) :
    SameAnswer
      (unlessFault ((Forest.memberClash ⟨roots⟩).map Fault.build) { forest := ⟨roots⟩, tally })
      (unlessFault ((Forest.memberClash ⟨roots'⟩).map Fault.build)
        { forest := ⟨roots'⟩, tally }) := by
  cases hclash : Forest.memberClash ⟨roots⟩ with
  | none =>
      have hroots := memberClash_eq_none_iff.mp hclash
      have hclash' : Forest.memberClash ⟨roots'⟩ = none :=
        memberClash_eq_none_iff.mpr (unclashed_of_alike halike hplaced' hroots)
      rw [hclash']
      exact .made (same_of_alike halike hplaced hplaced' hroots) rfl
  | some fault =>
      cases hclash' : Forest.memberClash ⟨roots'⟩ with
      | none =>
          have halike' : List.Forall₂ Node.Alike roots' roots :=
            List.Forall₂.flip (halike.imp fun _ _ hroot => hroot.symm)
          have hroots := unclashed_of_alike halike' hplaced (memberClash_eq_none_iff.mp hclash')
          rw [memberClash_eq_none_iff.mpr hroots] at hclash
          cases hclash
      | some fault' =>
          obtain ⟨path, member, rfl⟩ := fault_of_memberClash hclash
          obtain ⟨path', member', rfl⟩ := fault_of_memberClash hclash'
          exact .memberClash path member path' member'

/-- Plain steps make the same of forests that are the same, in which every node stands
at its keys and no map holds a key twice, unless the nodes of one of them lie deeper
than the rewriter may go. -/
theorem apply_sameAnswer {steps : List PureStep} (hsteps : ∀ step ∈ steps, step.Plain)
    {forest forest' : Forest} (hplaced : forest.Placed) (hplaced' : forest'.Placed)
    (hdistinct : forest.Distinct) (hdistinct' : forest'.Distinct)
    (hsame : forest.same forest' = true) (rewriter : Rewriter)
    (hends : rewriter.apply steps forest ≠ .error .tooDeep)
    (hends' : rewriter.apply steps forest' ≠ .error .tooDeep) :
    SameAnswer (rewriter.apply steps forest) (rewriter.apply steps forest') := by
  by_cases hempty : steps = []
  · subst hempty
    exact .made hsame rfl
  · have htwin := Forest.twin_of_same hplaced hplaced' hdistinct hdistinct' hsame
    obtain ⟨tree, tree', changes, hsettled, hsettled', htree⟩ := settle_twins hsteps htwin
    rw [apply_of_settle rewriter hempty hsettled] at hends ⊢
    rw [apply_of_settle rewriter hempty hsettled'] at hends' ⊢
    cases hleft : siblings (Walk.visit steps tree rewriter.levels none) [] tree.roots with
    | ok left =>
        obtain ⟨kept', hleft', halike⟩ := roots_twins hsteps htree hleft
        rw [hleft', ok_bind, ok_bind]
        exact sameAnswer_of_alike halike
          (siblings_placed (fun _ _ _ _ hkept => visit_placed hkept) hleft).1
          (siblings_placed (fun _ _ _ _ hkept => visit_placed hkept) hleft').1 _
    | error fault =>
        cases hleft' : siblings (Walk.visit steps tree' rewriter.levels none) [] tree'.roots with
        | ok left' =>
            -- Had the second walk come through, then so would have the first.
            obtain ⟨kept, hkept, -⟩ := roots_twins hsteps htree.symm hleft'
            rw [hkept] at hleft
            cases hleft
        | error fault' =>
            rw [hleft, error_bind] at hends
            rw [hleft', error_bind] at hends'
            rcases siblings_fails (fun root hroot _ _ hfault =>
              visit_fails hsteps htree.distinct (htree.distinct root hroot) hfault) hleft with
              rfl | ⟨path, rfl⟩
            · exact absurd rfl hends
            · rcases siblings_fails (fun root hroot _ _ hfault => visit_fails hsteps
                htree.symm.distinct (htree.symm.distinct root hroot) hfault) hleft' with
                rfl | ⟨path', rfl⟩
              · exact absurd rfl hends'
              · exact .nodeClash path path'

/-- A root with two leaves and then a child that has two leaves. -/
def copse : Forest :=
  .ofRoots [(((Node.named "r").withChild (.named "a")).withChild (.named "d")).withChild
    (((Node.named "b").withChild (.named "e")).withChild (.named "f"))]

/-- The same forest with all children in the opposite order. -/
def copseReversed : Forest :=
  .ofRoots [(((Node.named "r").withChild
    (((Node.named "b").withChild (.named "f")).withChild (.named "e"))).withChild
    (.named "d")).withChild (.named "a")]

def copseSteps : List PureStep :=
  [{ name := "rename leaves", guard := some .leaf, rule := .composite "both" [.renameNode "x"] }]

/-- The walks fail at different nodes. -/
theorem apply_sameAnswer_copse :
    (∀ step ∈ copseSteps, step.Plain) ∧ copse.same copseReversed = true ∧
      ∀ policy, SameAnswer (({ missingChild := policy } : Rewriter).apply copseSteps copse)
        (({ missingChild := policy } : Rewriter).apply copseSteps copseReversed) := by
  have hrename : ∀ rule ∈ [(.renameNode "x" : Rule (Except Fault))], rule.Plain :=
    List.forall_mem_singleton.mpr (.renameNode "x")
  have hsteps : ∀ step ∈ copseSteps, step.Plain := by
    refine List.forall_mem_singleton.mpr ⟨fun guard hguard => ?_, .composite hrename⟩
    cases hguard
    exact .leaf
  have hsame : copse.same copseReversed = true := by decide +kernel
  refine ⟨hsteps, hsame, fun policy => ?_⟩
  have hends : ({ missingChild := policy } : Rewriter).apply copseSteps copse =
      .error (.build (.duplicateNode ⟨"r", ["x"]⟩)) := rfl
  have hends' : ({ missingChild := policy } : Rewriter).apply copseSteps copseReversed =
      .error (.build (.duplicateNode ⟨"r", ["b", "x"]⟩)) := rfl
  have hplaced : copse.Placed := rfl
  have hplaced' : copseReversed.Placed := rfl
  have hdistinct : copse.Distinct := by decide
  have hdistinct' : copseReversed.Distinct := by decide
  exact apply_sameAnswer hsteps hplaced hplaced' hdistinct hdistinct' hsame _ (by simp [hends])
    (by simp [hends'])

end Rewriter

end TreePass
