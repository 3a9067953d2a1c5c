import TreePass.Proofs.Codec.RoundTrip
import TreePass.Proofs.Rewrite.Balance
import TreePass.Proofs.Rewrite.Composite

/-!
# Reordering steps

Guards are asked about a node or a member as it was before the first step, in the forest
that the steps on the forest as a whole left. So the order of the steps makes no
difference to which of them apply. Two neighbours that leave the forest as a whole alone,
and whose rules come to the same in either order, may therefore change places, whatever
their guards test.

Some rules come to the same only on nodes and members as they are made, for instance
only if attributes are in ascending order. Which ones are meant is said by a kind, that
all rules have to keep.
-/

namespace TreePass

/-- What is taken for granted of nodes, at every depth, and of members. -/
structure Kind where
  node : Node → Prop
  member : Member → Prop
  child : ∀ {parent : Node} {entry : String × Node}, node parent → entry ∈ parent.children →
    node entry.2
  slot : ∀ {parent : Node} {entry : String × Member}, node parent → entry ∈ parent.members →
    member entry.2

namespace Kind

/-- Nothing is taken for granted. -/
def arbitrary : Kind where
  node _ := True
  member _ := True
  child _ _ := trivial
  slot _ _ := trivial

/-- Maps hold no key twice, and sets of attributes are in ascending order. -/
def lawful : Kind where
  node node := node.Distinct ∧ node.Ascending
  member member := member.attributes.Ascending
  child hparent hentry := ⟨hparent.1.child hentry, hparent.2.child hentry⟩
  slot hparent hentry := (hparent.2 _ (Node.mem_preorder_self _)).2 _ hentry

theorem lawful_withAttributes {node : Node} (hnode : lawful.node node) {attributes : AttributeSet}
    (hattributes : attributes.Ascending) : lawful.node { node with attributes } := by
  obtain ⟨hdistinct, hascending⟩ := hnode
  have hmaps := Node.distinct_iff.mp hdistinct
  refine ⟨Node.distinct_iff.mpr hmaps, fun inner hinner => ?_⟩
  rw [Node.preorder_eq] at hinner
  rcases List.mem_cons.mp hinner with rfl | hbelow
  · exact ⟨hattributes, (hascending node node.mem_preorder_self).2⟩
  · refine hascending inner ?_
    rw [Node.preorder_eq]
    exact List.mem_cons_of_mem _ hbelow

/-- All nodes of the forest are of the kind. -/
def forest (kind : Kind) (forest : Forest) : Prop :=
  ∀ root ∈ forest.roots, kind.node root

end Kind

variable {σ : Type}

namespace Rule

/-- What the rule makes of things of the kind is of the kind again. -/
structure Keeps (rule : Rule (Work σ)) (kind : Kind) : Prop where
  onTree : ∀ forest, kind.forest forest → Ensures (rule.onTree forest) kind.forest
  onNode : ∀ forest node, kind.forest forest → kind.node node →
    Ensures (rule.onNode forest node) fun left => ∀ kept ∈ left, kind.node kept
  onMember : ∀ forest node member, kind.forest forest → kind.node node → kind.member member →
    Ensures (rule.onMember forest node member) fun left => ∀ kept ∈ left, kind.member kept

/-- The rules leave forests as a whole alone, and on a node or a member of the kind they
come to the same in either order, be it what is left, a removal or a fault. -/
structure Interchange (kind : Kind) (first second : Rule (Work σ)) : Prop where
  onTree_first : ∀ forest, kind.forest forest → first.onTree forest = pure forest
  onTree_second : ∀ forest, kind.forest forest → second.onTree forest = pure forest
  onNode : ∀ forest node, kind.forest forest → kind.node node →
    onNodeAll forest node [first, second] = onNodeAll forest node [second, first]
  onMember : ∀ forest node member, kind.forest forest → kind.node node → kind.member member →
    onMemberAll forest node member [first, second] =
      onMemberAll forest node member [second, first]

namespace Interchange

variable {kind : Kind} {first second : Rule (Work σ)} {forest : Forest} {node : Node}

/-- Before whatever rules follow, the two come to the same in either order. -/
theorem onNodeAll_swap (hswap : Interchange kind first second) (hforest : kind.forest forest)
    (hnode : kind.node node) (rest : List (Rule (Work σ))) :
    Rule.onNodeAll forest node (first :: second :: rest) =
      Rule.onNodeAll forest node (second :: first :: rest) := by
  have hfirst := onNodeAll_append forest [first, second] rest node
  have hsecond := onNodeAll_append forest [second, first] rest node
  rw [hswap.onNode forest node hforest hnode] at hfirst
  exact hfirst.trans hsecond.symm

theorem onMemberAll_swap (hswap : Interchange kind first second) (hforest : kind.forest forest)
    (hnode : kind.node node) {member : Member} (hmember : kind.member member)
    (rest : List (Rule (Work σ))) :
    Rule.onMemberAll forest node member (first :: second :: rest) =
      Rule.onMemberAll forest node member (second :: first :: rest) := by
  have hfirst := onMemberAll_append forest [first, second] rest node member
  have hsecond := onMemberAll_append forest [second, first] rest node member
  rw [hswap.onMember forest node member hforest hnode hmember] at hfirst
  exact hfirst.trans hsecond.symm

end Interchange

/-- Where nothing is taken for granted, every rule keeps that. -/
theorem keeps_arbitrary (rule : Rule (Work σ)) : rule.Keeps .arbitrary where
  onTree _ _ := (Ensures.trivial _).mono fun _ _ _ _ => trivial
  onNode _ _ _ _ := (Ensures.trivial _).mono fun _ _ _ _ => trivial
  onMember _ _ _ _ _ _ := (Ensures.trivial _).mono fun _ _ _ _ => trivial

/-! ## Rules about attributes -/

theorem keeps_addAttribute {value : Attribute} (hvalue : value.Ascending) (target : Target) :
    (addAttribute value target : Rule (Work σ)).Keeps .lawful where
  onTree forest hforest := .pure hforest
  onNode forest node _ hnode := by
    have hset := (hnode.2 node node.mem_preorder_self).1.including hvalue
    cases target with
    | node =>
        refine .pure fun _ hkept => ?_
        exact Option.some.inj hkept ▸ Kind.lawful_withAttributes hnode hset
    | member => exact .pure fun _ hkept => Option.some.inj hkept ▸ hnode
  onMember forest node member _ _ hmember := by
    cases target with
    | node => exact .pure fun _ hkept => Option.some.inj hkept ▸ hmember
    | member => exact .pure fun _ hkept => Option.some.inj hkept ▸ hmember.including hvalue

theorem keeps_removeAttribute (key : String) (target : Target) :
    (removeAttribute key target : Rule (Work σ)).Keeps .lawful where
  onTree forest hforest := .pure hforest
  onNode forest node _ hnode := by
    have hset := (hnode.2 node node.mem_preorder_self).1.removeKey key
    cases target with
    | node =>
        refine .pure fun _ hkept => ?_
        exact Option.some.inj hkept ▸ Kind.lawful_withAttributes hnode hset
    | member => exact .pure fun _ hkept => Option.some.inj hkept ▸ hnode
  onMember forest node member _ _ hmember := by
    cases target with
    | node => exact .pure fun _ hkept => Option.some.inj hkept ▸ hmember
    | member => exact .pure fun _ hkept => Option.some.inj hkept ▸ hmember.removeKey key

/-- Adding an attribute and dropping those of another key come to the same in either
order, as sets are in ascending order. -/
theorem interchange_attributes {value : Attribute} {key : String} (hkey : value.key ≠ key)
    (target : Target) :
    Interchange (σ := σ) .lawful (addAttribute value target) (removeAttribute key target) where
  onTree_first _ _ := rfl
  onTree_second _ _ := rfl
  onNode forest node _ hnode := by
    have hset := (hnode.2 node node.mem_preorder_self).1.removeKey_including hkey
    cases target with
    | node => simp [onNodeAll, onNode, Node.withAttribute, hset]
    | member => rfl
  onMember forest node member _ _ hmember := by
    have hset := hmember.removeKey_including hkey
    cases target with
    | node => rfl
    | member => simp [onMemberAll, onMember, Member.withAttribute, hset]

/-- Documentation is apart from attributes, whatever a node is like. -/
theorem interchange_documentation (value : Attribute) (target : Target)
    (documentation : Option String) :
    Interchange (σ := σ) .arbitrary (addAttribute value target)
      (setDocumentation documentation) where
  onTree_first _ _ := rfl
  onTree_second _ _ := rfl
  onNode _ _ _ _ := by cases target <;> rfl
  onMember _ _ _ _ _ _ := by cases target <;> rfl

end Rule

namespace Rewriter

variable {kind : Kind} {steps before after : List (Step (Work σ))} {first second : Step (Work σ)}
  {tree : Forest}

/-! ## Neighbours on a forest, a node and a member -/

theorem foldTree_reordered (hbefore : ∀ step ∈ before, step.rule.Keeps kind)
    (hswap : first.rule.Interchange kind second.rule) (tally : Tally) {forest : Forest}
    (hforest : kind.forest forest) :
    foldTree tally forest (before ++ first :: second :: after) =
      foldTree tally forest (before ++ second :: first :: after) := by
  induction before generalizing tally forest with
  | nil =>
      have hfirst := hswap.onTree_first forest hforest
      have hsecond := hswap.onTree_second forest hforest
      by_cases hadmits : first.admits forest .tree = true
      · by_cases hadmits' : second.admits forest .tree = true
        · simp [foldTree, hadmits, hadmits', hfirst, hsecond]
        · simp [foldTree, hadmits, hadmits', hfirst]
      · simp [foldTree, hadmits, hsecond]
  | cons step rest ih =>
      obtain ⟨hstep, hrest⟩ := List.forall_mem_cons.mp hbefore
      rw [List.cons_append, List.cons_append, foldTree, foldTree]
      split
      next => exact (hstep.onTree forest hforest).bind_congr fun next hnext => ih hrest _ hnext
      next => exact ih hrest tally hforest

theorem foldNode_reordered (hbefore : ∀ step ∈ before, step.rule.Keeps kind)
    (hswap : first.rule.Interchange kind second.rule) (htree : kind.forest tree) (entered : Node)
    {current : Node} (hcurrent : kind.node current) :
    foldNode tree entered current (before ++ first :: second :: after) =
      foldNode tree entered current (before ++ second :: first :: after) := by
  induction before generalizing current with
  | nil =>
      rw [List.nil_append, List.nil_append, foldNode_eq_onNodeAll, foldNode_eq_onNodeAll]
      by_cases hadmits : first.admits tree (.node entered) = true
      · by_cases hadmits' : second.admits tree (.node entered) = true
        · simp only [List.filter_cons, hadmits, hadmits', if_true, List.map_cons]
          exact hswap.onNodeAll_swap htree hcurrent _
        · simp [hadmits, hadmits']
      · simp [List.filter_cons, hadmits]
  | cons step rest ih =>
      obtain ⟨hstep, hrest⟩ := List.forall_mem_cons.mp hbefore
      rw [List.cons_append, List.cons_append, foldNode, foldNode]
      split
      next =>
        refine (hstep.onNode tree current htree hcurrent).bind_congr fun left hleft => ?_
        cases left with
        | none => rfl
        | some next => exact ih hrest (hleft next rfl)
      next => exact ih hrest hcurrent

theorem foldMember_reordered (hbefore : ∀ step ∈ before, step.rule.Keeps kind)
    (hswap : first.rule.Interchange kind second.rule) (htree : kind.forest tree) (node : Node)
    {kept : Node} (hkept : kind.node kept) (entered : Member) {current : Member}
    (hcurrent : kind.member current) :
    foldMember tree node kept entered current (before ++ first :: second :: after) =
      foldMember tree node kept entered current (before ++ second :: first :: after) := by
  induction before generalizing current with
  | nil =>
      rw [List.nil_append, List.nil_append, foldMember_eq_onMemberAll, foldMember_eq_onMemberAll]
      by_cases hadmits : first.admits tree (.member node entered) = true
      · by_cases hadmits' : second.admits tree (.member node entered) = true
        · simp only [List.filter_cons, hadmits, hadmits', if_true, List.map_cons]
          exact hswap.onMemberAll_swap htree hkept hcurrent _
        · simp [hadmits, hadmits']
      · simp [List.filter_cons, hadmits]
  | cons step rest ih =>
      obtain ⟨hstep, hrest⟩ := List.forall_mem_cons.mp hbefore
      rw [List.cons_append, List.cons_append, foldMember, foldMember]
      split
      next =>
        refine (hstep.onMember tree kept current htree hkept hcurrent).bind_congr
          fun left hleft => ?_
        cases left with
        | none => rfl
        | some next => exact ih hrest (hleft next rfl)
      next => exact ih hrest hcurrent

theorem foldMembers_reordered (hbefore : ∀ step ∈ before, step.rule.Keeps kind)
    (hswap : first.rule.Interchange kind second.rule) (htree : kind.forest tree) (node : Node)
    {kept : Node} (hkept : kind.node kept) (tally : Tally) {members : List Member}
    (hmembers : ∀ member ∈ members, kind.member member) :
    foldMembers (before ++ first :: second :: after) tree node kept tally members =
      foldMembers (before ++ second :: first :: after) tree node kept tally members := by
  induction members generalizing tally with
  | nil => rfl
  | cons member rest ih =>
      obtain ⟨hmember, hrest⟩ := List.forall_mem_cons.mp hmembers
      rw [foldMembers, foldMembers,
        foldMember_reordered hbefore hswap htree node hkept member hmember]
      refine congrArg _ (funext fun left => ?_)
      cases left with
      | none => exact ih _ hrest
      | some left => exact congrArg (· >>= _) (ih _ hrest)

/-! ## Whole rewrites -/

theorem foldTree_keeps (hsteps : ∀ step ∈ steps, step.rule.Keeps kind) (tally : Tally)
    {forest : Forest} (hforest : kind.forest forest) :
    Ensures (foldTree tally forest steps) fun settled => kind.forest settled.1 := by
  induction steps generalizing tally forest with
  | nil => exact .pure hforest
  | cons step rest ih =>
      obtain ⟨hstep, hrest⟩ := List.forall_mem_cons.mp hsteps
      rw [foldTree]
      split
      next => exact (hstep.onTree forest hforest).bind fun next hnext => ih hrest _ hnext
      next => exact ih hrest tally hforest

theorem visit_reordered
    (hsteps : ∀ step ∈ before ++ first :: second :: after, step.rule.Keeps kind)
    (hswap : first.rule.Interchange kind second.rule) (htree : kind.forest tree) (levels : Nat)
    (parent : Option Path) (progress : Progress) {node : Node} (hnode : kind.node node) :
    visit (before ++ first :: second :: after) tree levels parent progress node =
      visit (before ++ second :: first :: after) tree levels parent progress node := by
  have hbefore : ∀ step ∈ before, step.rule.Keeps kind :=
    fun step hstep => hsteps step (List.mem_append_left _ hstep)
  induction levels generalizing parent progress node with
  | zero => rfl
  | succ levels ih =>
      have hkeeps : Ensures (foldNode tree node node (before ++ first :: second :: after))
          fun left => ∀ kept ∈ left, kind.node kept :=
        foldNode_ensures (fun step hstep current => (hsteps step hstep).onNode tree current htree)
          node hnode
      rw [visit, visit, ← foldNode_reordered hbefore hswap htree node hnode]
      refine hkeeps.bind_congr fun left hleft => ?_
      cases left with
      | none => rfl
      | some kept =>
          have hkept : kind.node kept := hleft kept rfl
          have hmembers : ∀ member ∈ Keyed.values kept.members, kind.member member :=
            List.forall_mem_map.mpr fun entry => kind.slot hkept
          have hchildren : ∀ child ∈ Keyed.values kept.children, kind.node child :=
            List.forall_mem_map.mpr fun entry => kind.child hkept
          refine (Correspondence.same _).ofThrowIf _ _ fun _ => ?_
          rw [foldMembers_reordered hbefore hswap htree node hkept _ hmembers]
          refine congrArg _ (funext fun folded => ?_)
          refine congrArg (orRaise _ _ >>= ·) (funext fun staging => ?_)
          exact foldlM_congr (fun child hchild before => ih _ before (hchildren child hchild)) _

/-- Neighbours whose rules come to the same in either order may change places under any
guards: the rewrite has the same effects, and it comes to the same forest and the same
tally or to the same fault. -/
theorem apply_reordered
    (hsteps : ∀ step ∈ before ++ first :: second :: after, step.rule.Keeps kind)
    (hswap : first.rule.Interchange kind second.rule) {forest : Forest}
    (hforest : kind.forest forest) (rewriter : Rewriter) :
    rewriter.apply (before ++ first :: second :: after) forest =
      rewriter.apply (before ++ second :: first :: after) forest := by
  have hbefore : ∀ step ∈ before, step.rule.Keeps kind :=
    fun step hstep => hsteps step (List.mem_append_left _ hstep)
  have hempty (left right : Step (Work σ)) :
      (before ++ left :: right :: after).isEmpty = false := by
    simp
  rw [apply, apply, hempty, hempty, if_neg Bool.false_ne_true, if_neg Bool.false_ne_true,
    ← foldTree_reordered hbefore hswap .zero hforest]
  refine (foldTree_keeps hsteps .zero hforest).bind_congr fun settled htree => ?_
  refine congrArg (· >>= _) (foldlM_congr (fun root hroot before => ?_) _)
  exact visit_reordered hsteps hswap htree rewriter.levels none before (htree root hroot)

/-- A node that is marked as old, above one that is not. -/
def marked : Forest :=
  .ofRoots [((Node.named "r").withAttribute (.flag "old")).withChild (.named "c")]

/-- Old nodes are marked as new. -/
def renewing : Step (Work Nat) where
  name := "renew"
  guard := some (.nodeTagged "old")
  rule := .addAttribute (.flag "new") .node

/-- Nodes that are not marked as new are no longer marked as old. -/
def clearing : Step (Work Nat) where
  name := "clear"
  guard := some (.not (.nodeTagged "new"))
  rule := .removeAttribute "old" .node

/-- Nodes that are not marked as new get a text. -/
def documenting : Step (Work Nat) where
  name := "document"
  guard := some (.not (.nodeTagged "new"))
  rule := .setDocumentation (some "not new")

/-- The step counts the nodes that it sees. -/
def counting : Step (Work Nat) :=
  .ofRule (.observeNode (modify (· + 1)))

theorem keeps_counting : counting.rule.Keeps .lawful where
  onTree _ hforest := .pure hforest
  onNode _ _ _ hnode := (Ensures.trivial _).bind fun _ _ =>
    .pure fun _ hkept => Option.some.inj hkept ▸ hnode
  onMember _ _ _ _ _ hmember := .pure fun _ hkept => Option.some.inj hkept ▸ hmember

/-- Each of two guards tests what the other rule changes, and yet the order makes no
difference. For documentation nothing needs to be taken for granted. -/
theorem apply_reordered_marked :
    renewing.rule.Interchange .lawful clearing.rule ∧ Kind.lawful.forest marked ∧
      (Rewriter.mk .refuse 3).apply [counting, renewing, clearing] marked =
        (Rewriter.mk .refuse 3).apply [counting, clearing, renewing] marked ∧
      (∀ forest, (Rewriter.mk .refuse 3).apply [clearing, renewing, documenting] forest =
        (Rewriter.mk .refuse 3).apply [clearing, documenting, renewing] forest) ∧
      (((Rewriter.mk .refuse 3).apply [counting, renewing, clearing] marked).run.run 0).2 = 2 ∧
      (((Rewriter.mk .refuse 3).apply [counting, renewing, clearing] marked).run.run 0).1.map
          (fun outcome => outcome.forest.nodes.map fun node => node.attributes.values) =
        .ok [[.flag "new"], []] := by
  have hswap : renewing.rule.Interchange .lawful clearing.rule :=
    Rule.interchange_attributes (by decide) .node
  have hforest : Kind.lawful.forest marked := by
    refine List.forall_mem_singleton.mpr ⟨?_, ?_⟩ <;> decide
  have hsteps : ∀ step ∈ [counting] ++ renewing :: clearing :: [],
      step.rule.Keeps .lawful := by
    refine List.forall_mem_cons.mpr ⟨keeps_counting, List.forall_mem_cons.mpr ⟨?_,
      List.forall_mem_singleton.mpr (Rule.keeps_removeAttribute "old" .node)⟩⟩
    exact Rule.keeps_addAttribute (.flag "new") .node
  have hdocumented (forest : Forest) :
      (Rewriter.mk .refuse 3).apply ([clearing] ++ renewing :: documenting :: []) forest =
        (Rewriter.mk .refuse 3).apply ([clearing] ++ documenting :: renewing :: []) forest :=
    apply_reordered (fun step _ => step.rule.keeps_arbitrary)
      (Rule.interchange_documentation _ _ _) (fun _ _ => trivial) _
  exact ⟨hswap, hforest, apply_reordered hsteps hswap hforest _, hdocumented, by decide +kernel,
    by decide +kernel⟩

end Rewriter

end TreePass
