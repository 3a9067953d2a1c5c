import TreePass.Proofs.Node.Twin
import TreePass.Step

/-!
# Plain rules and guards

A guard is plain when no function is in it, and so is a rule whose nodes besides have
no key twice. Plain guards cannot tell twins apart, and plain rules make twins of
twins; of a member they make the same wherever it is. They never fail and have no
effects.
-/

namespace TreePass

/-- A guard without functions. -/
inductive Guard.Plain : Guard → Prop where
  | always : Plain .always
  | never : Plain .never
  | nodeNamed (name : String) : Plain (.nodeNamed name)
  | nodeAt (path : Path) : Plain (.nodeAt path)
  | under (path : Path) : Plain (.under path)
  | depth (edges : Nat) : Plain (.depth edges)
  | nodeTagged (key : String) : Plain (.nodeTagged key)
  | hasMember (name : String) : Plain (.hasMember name)
  | leaf : Plain .leaf
  | memberNamed (name : String) : Plain (.memberNamed name)
  | memberTyped (typeName : String) : Plain (.memberTyped typeName)
  | memberTagged (key : String) : Plain (.memberTagged key)
  | treeContains (path : Path) : Plain (.treeContains path)
  | and {first second : Guard} (hfirst : Plain first) (hsecond : Plain second) :
      Plain (.and first second)
  | or {first second : Guard} (hfirst : Plain first) (hsecond : Plain second) :
      Plain (.or first second)
  | xor {first second : Guard} (hfirst : Plain first) (hsecond : Plain second) :
      Plain (.xor first second)
  | not {guard : Guard} (hguard : Plain guard) : Plain (.not guard)
  | all {guards : List Guard} (hguards : ∀ guard ∈ guards, Plain guard) : Plain (.all guards)
  | any {guards : List Guard} (hguards : ∀ guard ∈ guards, Plain guard) : Plain (.any guards)

/-- A rule without functions whose nodes have no key twice. -/
inductive Rule.Plain {m : Type → Type} : Rule m → Prop where
  | addRoot {root : Node} (hroot : root.Distinct) : Plain (.addRoot root)
  | removeRoot (name : String) : Plain (.removeRoot name)
  | addMember (member : Member) : Plain (.addMember member)
  | removeMember (name : String) : Plain (.removeMember name)
  | renameMember (old new : String) : Plain (.renameMember old new)
  | retypeMember (name : String) (typeName : Option String) : Plain (.retypeMember name typeName)
  | documentMember (name : String) (documentation : Option String) :
      Plain (.documentMember name documentation)
  | addChild {child : Node} (hchild : child.Distinct) : Plain (.addChild child)
  | removeChild (name : String) : Plain (.removeChild name)
  | removeNode : Plain .removeNode
  | renameNode (name : String) : Plain (.renameNode name)
  | setDocumentation (documentation : Option String) : Plain (.setDocumentation documentation)
  | addAttribute (value : Attribute) (target : Target) : Plain (.addAttribute value target)
  | removeAttribute (key : String) (target : Target) : Plain (.removeAttribute key target)
  | composite {name : String} {rules : List (Rule m)} (hrules : ∀ rule ∈ rules, Plain rule) :
      Plain (.composite name rules)

/-- A step made of a plain rule and perhaps a plain guard. -/
structure Step.Plain {m : Type → Type} (step : Step m) : Prop where
  guard : ∀ guard ∈ step.guard, guard.Plain
  rule : step.rule.Plain

/-! ## Guards -/

/-- Twins as what a guard is asked about; a member is asked about with twins that
hold it. -/
inductive Subject.Twin : Subject → Subject → Prop where
  | tree : Twin .tree .tree
  | node {node other : Node} (htwin : node.Twin other) : Twin (.node node) (.node other)
  | member {node other : Node} (htwin : node.Twin other) (member : Member) :
      Twin (.member node member) (.member other member)

variable {forest other : Forest} {subject subject' : Subject}

theorem Guard.onNode_eq {test : Node → Bool} (hsubject : subject.Twin subject')
    (htest : ∀ node other : Node, node.Twin other → test node = test other) :
    Guard.onNode test subject = Guard.onNode test subject' := by
  cases hsubject with
  | tree => rfl
  | node htwin => exact htest _ _ htwin
  | member htwin => exact htest _ _ htwin

theorem Guard.onMember_eq {test : Member → Bool} (hsubject : subject.Twin subject') :
    Guard.onMember (fun _ => test) subject = Guard.onMember (fun _ => test) subject' := by
  cases hsubject <;> rfl

theorem Node.Twin.hasMember_eq {node other : Node} (htwin : node.Twin other) (name : String) :
    node.hasMember name = other.hasMember name := by
  have hsame := (Keyed.perm_iff_get? htwin.distinct.members htwin.other_distinct.members).mp
    htwin.members_perm
  rw [Node.hasMember, Node.hasMember, Keyed.contains, Keyed.contains, hsame]

/-- If each guard says the same of both subjects, so do all of them together. -/
theorem Guard.allHold_congr {guards : List Guard}
    (hguards : ∀ guard ∈ guards, guard.holds forest subject = guard.holds other subject') :
    allHold forest subject guards = allHold other subject' guards := by
  induction guards with
  | nil => rfl
  | cons guard rest ih =>
      obtain ⟨hfirst, hrest⟩ := List.forall_mem_cons.mp hguards
      rw [allHold, allHold, hfirst, ih hrest]

theorem Guard.anyHolds_congr {guards : List Guard}
    (hguards : ∀ guard ∈ guards, guard.holds forest subject = guard.holds other subject') :
    anyHolds forest subject guards = anyHolds other subject' guards := by
  induction guards with
  | nil => rfl
  | cons guard rest ih =>
      obtain ⟨hfirst, hrest⟩ := List.forall_mem_cons.mp hguards
      rw [anyHolds, anyHolds, hfirst, ih hrest]

/-- Plain guards hold of both twins or of none. -/
theorem Guard.Plain.holds_eq {guard : Guard} (hguard : guard.Plain) (hforest : forest.Twin other)
    (hsubject : subject.Twin subject') :
    guard.holds forest subject = guard.holds other subject' := by
  induction hguard with
  | always => rfl
  | never => rfl
  | nodeNamed name =>
      exact onNode_eq hsubject fun node other htwin => by rw [htwin.name_eq]
  | nodeAt path =>
      exact onNode_eq hsubject fun node other htwin => by rw [htwin.path_eq]
  | under path =>
      exact onNode_eq hsubject fun node other htwin => by rw [htwin.path_eq]
  | depth edges =>
      exact onNode_eq hsubject fun node other htwin => by
        rw [Node.depth, Node.depth, htwin.path_eq]
  | nodeTagged key =>
      exact onNode_eq hsubject fun node other htwin => by rw [htwin.attributes_eq]
  | hasMember name => exact onNode_eq hsubject fun node other htwin => htwin.hasMember_eq name
  | leaf => exact onNode_eq hsubject fun node other htwin => htwin.children_isEmpty
  | memberNamed name => exact onMember_eq hsubject
  | memberTyped typeName => exact onMember_eq hsubject
  | memberTagged key => exact onMember_eq hsubject
  | treeContains path => exact hforest.contains_eq path
  | and _ _ hfirst hsecond => rw [holds, holds, hfirst, hsecond]
  | or _ _ hfirst hsecond => rw [holds, holds, hfirst, hsecond]
  | xor _ _ hfirst hsecond => rw [holds, holds, hfirst, hsecond]
  | not _ hguard => rw [holds, holds, hguard]
  | all _ hguards => exact allHold_congr hguards
  | any _ hguards => exact anyHolds_congr hguards

theorem Step.Plain.admits_eq {m : Type → Type} {step : Step m} (hstep : step.Plain)
    (hforest : forest.Twin other) (hsubject : subject.Twin subject') :
    step.admits forest subject = step.admits other subject' := by
  rw [Step.admits, Step.admits]
  cases hguard : step.guard with
  | none => rfl
  | some guard => exact (hstep.guard guard hguard).holds_eq hforest hsubject

/-! ## Rules -/

namespace Rule

variable {m : Type → Type} [Monad m]

/-- Two rules make twin forests, without effects. -/
def MakesTwins (made made' : m Forest) : Prop :=
  ∃ next next', made = pure next ∧ made' = pure next' ∧ next.Twin next'

/-- Two rules leave twin nodes, or nothing both of them, without effects. -/
def LeavesTwins (left left' : m (Option Node)) : Prop :=
  ∃ found found', left = pure found ∧ left' = pure found' ∧ Option.Rel Node.Twin found found'

variable [LawfulMonad m]

theorem onTreeAll_twins {rules : List (Rule m)}
    (hrules : ∀ rule ∈ rules, ∀ forest other : Forest, forest.Twin other →
      MakesTwins (rule.onTree forest) (rule.onTree other)) (hforest : forest.Twin other) :
    MakesTwins (onTreeAll forest rules) (onTreeAll other rules) := by
  induction rules generalizing forest other with
  | nil => exact ⟨forest, other, rfl, rfl, hforest⟩
  | cons rule rest ih =>
      obtain ⟨hrule, hrest⟩ := List.forall_mem_cons.mp hrules
      obtain ⟨next, next', hnext, hnext', htwin⟩ := hrule forest other hforest
      rw [onTreeAll, onTreeAll, hnext, hnext', pure_bind, pure_bind]
      exact ih hrest htwin

/-- Plain rules make twins of twin forests. -/
theorem Plain.onTree_twins {rule : Rule m} (hrule : rule.Plain) (hforest : forest.Twin other) :
    MakesTwins (rule.onTree forest) (rule.onTree other) := by
  induction hrule generalizing forest other with
  | addRoot hroot => exact ⟨_, _, rfl, rfl, hforest.withRoot hroot⟩
  | removeRoot name => exact ⟨_, _, rfl, rfl, hforest.withoutRoot name⟩
  | composite _ hrules =>
      rw [onTree, onTree]
      exact onTreeAll_twins (fun rule hrule forest other => hrules rule hrule) hforest
  | _ => exact ⟨_, _, rfl, rfl, hforest⟩

theorem onNodeAll_twins {node node' : Node} {rules : List (Rule m)}
    (hrules : ∀ rule ∈ rules, ∀ node node' : Node, node.Twin node' →
      LeavesTwins (rule.onNode forest node) (rule.onNode other node'))
    (hnode : node.Twin node') :
    LeavesTwins (onNodeAll forest node rules) (onNodeAll other node' rules) := by
  induction rules generalizing node node' with
  | nil => exact ⟨_, _, rfl, rfl, .some hnode⟩
  | cons rule rest ih =>
      obtain ⟨hrule, hrest⟩ := List.forall_mem_cons.mp hrules
      obtain ⟨found, found', hfound, hfound', htwins⟩ := hrule node node' hnode
      rw [onNodeAll, onNodeAll, hfound, hfound', pure_bind, pure_bind]
      cases htwins with
      | none => exact ⟨_, _, rfl, rfl, .none⟩
      | some htwin => exact ih hrest htwin

/-- Plain rules leave twins of twin nodes. -/
theorem Plain.onNode_twins {rule : Rule m} (hrule : rule.Plain) (forest other : Forest)
    {node node' : Node} (hnode : node.Twin node') :
    LeavesTwins (rule.onNode forest node) (rule.onNode other node') := by
  induction hrule generalizing node node' with
  | addMember member => exact ⟨_, _, rfl, rfl, .some (hnode.withMember member)⟩
  | addChild hchild => exact ⟨_, _, rfl, rfl, .some (hnode.withChild hchild)⟩
  | removeChild name => exact ⟨_, _, rfl, rfl, .some (hnode.withoutChild name)⟩
  | removeNode => exact ⟨_, _, rfl, rfl, .none⟩
  | renameNode name => exact ⟨_, _, rfl, rfl, .some (hnode.setName name)⟩
  | setDocumentation documentation =>
      exact ⟨_, _, rfl, rfl, .some (hnode.setDocumentation documentation)⟩
  | addAttribute value target =>
      cases target with
      | member => exact ⟨_, _, rfl, rfl, .some hnode⟩
      | node =>
          refine ⟨_, _, rfl, rfl, .some ?_⟩
          rw [Node.withAttribute, Node.withAttribute, hnode.attributes_eq]
          exact hnode.setAttributes _
  | removeAttribute key target =>
      cases target with
      | member => exact ⟨_, _, rfl, rfl, .some hnode⟩
      | node =>
          refine ⟨_, _, rfl, rfl, .some ?_⟩
          rw [hnode.attributes_eq]
          exact hnode.setAttributes _
  | composite _ hrules =>
      rw [onNode, onNode]
      exact onNodeAll_twins (fun rule hrule node node' => hrules rule hrule) hnode
  | _ => exact ⟨_, _, rfl, rfl, .some hnode⟩

theorem onMemberAll_eq {rules : List (Rule m)}
    (hrules : ∀ rule ∈ rules, ∀ member, ∃ left, ∀ forest node,
      rule.onMember forest node member = pure left) (member : Member) :
    ∃ left, ∀ forest node, onMemberAll forest node member rules = pure left := by
  induction rules generalizing member with
  | nil => exact ⟨some member, fun _ _ => rfl⟩
  | cons rule rest ih =>
      obtain ⟨hrule, hrest⟩ := List.forall_mem_cons.mp hrules
      obtain ⟨left, hleft⟩ := hrule member
      cases left with
      | none =>
          refine ⟨none, fun forest node => ?_⟩
          rw [onMemberAll, hleft, pure_bind]
      | some next =>
          obtain ⟨last, hlast⟩ := ih hrest next
          refine ⟨last, fun forest node => ?_⟩
          rw [onMemberAll, hleft, pure_bind]
          exact hlast forest node

/-- What a plain rule makes of a member does not depend on where it is. -/
theorem Plain.onMember_eq {rule : Rule m} (hrule : rule.Plain) (member : Member) :
    ∃ left, ∀ forest node, rule.onMember forest node member = pure left := by
  induction hrule generalizing member with
  | composite _ hrules =>
      obtain ⟨left, hleft⟩ := onMemberAll_eq hrules member
      refine ⟨left, fun forest node => ?_⟩
      rw [onMember]
      exact hleft forest node
  | addAttribute value target => cases target <;> exact ⟨_, fun _ _ => rfl⟩
  | removeAttribute key target => cases target <;> exact ⟨_, fun _ _ => rfl⟩
  | _ => exact ⟨_, fun _ _ => rfl⟩

end Rule

end TreePass
