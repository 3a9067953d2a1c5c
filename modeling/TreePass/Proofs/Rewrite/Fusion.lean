import TreePass.Proofs.Rewrite.Composite
import TreePass.Proofs.Rewrite.Siblings
import TreePass.Proofs.Rewrite.WellPlaced
import TreePass.Proofs.Rule.Plain
import TreePass.Rule.Stock

/-!
# Rewrites of members in one go

Steps that work on members alone, and are guarded by what a node shows outside, can be
applied together with other such steps. What one rewrite makes of a forest after
another is then made in a single rewrite: between the two, members get other names and
places, but no guard takes notice of that.
-/

namespace TreePass

/-- The nodes cannot be told apart by what they show outside: their names, paths and
attributes, and whether they have children. -/
structure Node.SameOutside (node other : Node) : Prop where
  name_eq : node.name = other.name
  path_eq : node.path = other.path
  attributes_eq : node.attributes = other.attributes
  isEmpty_eq : node.children.isEmpty = other.children.isEmpty

/-- What the guard says of a member depends only on what the node of it shows outside. -/
def Guard.SeesOutside (guard : Guard) : Prop :=
  ∀ (tree tree' : Forest) (node node' : Node) (member member' : Member),
    node.SameOutside node' →
      guard.matchesMember tree node member = guard.matchesMember tree' node' member'

/-- The rule works on members alone, and on a member in the same way wherever it is. -/
structure Rule.MembersOnly (rule : Rule (Except Fault)) : Prop where
  onTree : ∀ forest, rule.onTree forest = .ok forest
  onNode : ∀ forest node, rule.onNode forest node = .ok (some node)
  onMember : ∀ forest forest' node node' member,
    rule.onMember forest node member = rule.onMember forest' node' member

/-- The step works on members alone, at nodes that are chosen from outside. -/
structure Step.MembersOnly (step : PureStep) : Prop where
  rule : step.rule.MembersOnly
  guard : ∀ guard ∈ step.guard, guard.SeesOutside

/-! ## Guards -/

/-- A guard that is made of tests of what a node shows outside. -/
inductive Guard.Outside : Guard → Prop where
  | always : Outside .always
  | never : Outside .never
  | nodeNamed (name : String) : Outside (.nodeNamed name)
  | nodeAt (path : Path) : Outside (.nodeAt path)
  | under (path : Path) : Outside (.under path)
  | depth (edges : Nat) : Outside (.depth edges)
  | nodeTagged (key : String) : Outside (.nodeTagged key)
  | leaf : Outside .leaf
  | nodeTest {test : Forest → Node → Bool}
      (htest : ∀ tree tree' node node', node.SameOutside node' → test tree node = test tree' node') :
      Outside (.nodeTest test)
  | and {first second : Guard} (hfirst : Outside first) (hsecond : Outside second) :
      Outside (.and first second)
  | or {first second : Guard} (hfirst : Outside first) (hsecond : Outside second) :
      Outside (.or first second)
  | xor {first second : Guard} (hfirst : Outside first) (hsecond : Outside second) :
      Outside (.xor first second)
  | not {guard : Guard} (hguard : Outside guard) : Outside (.not guard)
  | all {guards : List Guard} (hguards : ∀ guard ∈ guards, Outside guard) : Outside (.all guards)
  | any {guards : List Guard} (hguards : ∀ guard ∈ guards, Outside guard) : Outside (.any guards)

theorem Guard.Outside.seesOutside {guard : Guard} (hguard : guard.Outside) :
    guard.SeesOutside := by
  intro tree tree' node node' member member' hsame
  unfold matchesMember
  induction hguard with
  | always => rfl
  | never => rfl
  | nodeNamed name => simp only [holds, onNode, hsame.name_eq]
  | nodeAt path => simp only [holds, onNode, hsame.path_eq]
  | under path => simp only [holds, onNode, hsame.path_eq]
  | depth edges => simp only [holds, onNode, Node.depth, hsame.path_eq]
  | nodeTagged key => simp only [holds, onNode, hsame.attributes_eq]
  | leaf => simp only [holds, onNode, hsame.isEmpty_eq]
  | nodeTest htest => exact htest tree tree' node node' hsame
  | and _ _ hfirst hsecond => rw [holds, holds, hfirst, hsecond]
  | or _ _ hfirst hsecond => rw [holds, holds, hfirst, hsecond]
  | xor _ _ hfirst hsecond => rw [holds, holds, hfirst, hsecond]
  | not _ hguard => rw [holds, holds, hguard]
  | all _ hguards => exact allHold_congr hguards
  | any _ hguards => exact anyHolds_congr hguards

namespace Rule

variable {rules : List (Rule (Except Fault))}

theorem onNodeAll_membersOnly (hrules : ∀ rule ∈ rules, rule.MembersOnly) (tree : Forest)
    (node : Node) : onNodeAll tree node rules = .ok (some node) := by
  induction rules with
  | nil => rfl
  | cons rule rest ih =>
      obtain ⟨hrule, hrest⟩ := List.forall_mem_cons.mp hrules
      rw [onNodeAll, hrule.onNode, ok_bind]
      exact ih hrest

theorem onMemberAll_membersOnly (hrules : ∀ rule ∈ rules, rule.MembersOnly)
    (tree tree' : Forest) (node node' : Node) (member : Member) :
    onMemberAll tree node member rules = onMemberAll tree' node' member rules := by
  induction rules generalizing member with
  | nil => rfl
  | cons rule rest ih =>
      obtain ⟨hrule, hrest⟩ := List.forall_mem_cons.mp hrules
      simp only [onMemberAll_cons, hrule.onMember tree tree' node node', ih hrest]

end Rule

namespace Walk

variable {before after : List PureStep} {tree tree' : Forest} {node node' : Node}

/-! ## Members -/

theorem membersOnly_of_mem_rulesFor (hsteps : ∀ step ∈ after, step.MembersOnly)
    (subject : Subject) : ∀ rule ∈ rulesFor after tree subject, rule.MembersOnly := by
  intro rule hrule
  obtain ⟨step, hstep, -, rfl⟩ := exists_of_mem_rulesFor hrule
  exact (hsteps step hstep).rule

/-- The same rules apply to all members of nodes that are the same outside. -/
theorem rulesFor_sameOutside (hsteps : ∀ step ∈ after, step.MembersOnly)
    (hsame : node.SameOutside node') (member member' : Member) :
    rulesFor after tree (.member node member) = rulesFor after tree' (.member node' member') := by
  refine congrArg (List.map Step.rule) (List.filter_congr fun step hstep => ?_)
  rw [Step.admits, Step.admits]
  cases hguard : step.guard with
  | none => rfl
  | some guard => exact (hsteps step hstep).guard guard hguard tree tree' _ _ _ _ hsame

/-- A member is rewritten by the later steps after the earlier ones. -/
theorem onMemberAll_fused (hafter : ∀ step ∈ after, step.MembersOnly)
    (hsame : node.SameOutside node') (member : Member) :
    Rule.onMemberAll tree node member (rulesFor (before ++ after) tree (.member node member)) =
      Rule.onMemberAll tree node member (rulesFor before tree (.member node member)) >>=
        fun left => left.elim (pure none) fun next =>
          Rule.onMemberAll tree' node' next (rulesFor after tree' (.member node' next)) := by
  have hrules : rulesFor (before ++ after) tree (.member node member) =
      rulesFor before tree (.member node member) ++ rulesFor after tree (.member node member) := by
    rw [rulesFor, List.filter_append, List.map_append]
    rfl
  rw [hrules, Rule.onMemberAll_append]
  congr
  funext left
  congr
  funext next
  rw [rulesFor_sameOutside hafter hsame member next]
  exact Rule.onMemberAll_membersOnly (membersOnly_of_mem_rulesFor hafter _) tree tree' node node' next

theorem fates_cons_eq_ok {steps : List PureStep} {kept : Node} {member : Member}
    {rest : List Member} {found : List (Member × Option Member)} :
    fates steps tree node kept (member :: rest) = .ok found ↔ ∃ left others,
      Rule.onMemberAll tree kept member (rulesFor steps tree (.member node member)) = .ok left ∧
        fates steps tree node kept rest = .ok others ∧ found = (member, left) :: others := by
  rw [fates]
  constructor
  · intro hfates
    obtain ⟨left, hleft, hfates⟩ := bind_eq_ok.mp hfates
    obtain ⟨others, hothers, hfates⟩ := bind_eq_ok.mp hfates
    cases hfates
    exact ⟨left, others, hleft, hothers, rfl⟩
  · rintro ⟨left, others, hleft, hothers, rfl⟩
    rw [hleft, ok_bind, hothers]
    rfl

/-- What later steps leave of members that earlier ones left, all steps leave together. -/
theorem fates_fused (hafter : ∀ step ∈ after, step.MembersOnly) (hsame : node.SameOutside node')
    {members : List Member} {first second : List (Member × Option Member)}
    (hfirst : fates before tree node node members = .ok first)
    (hsecond : fates after tree' node' node' (first.filterMap Prod.snd) = .ok second) :
    ∃ fused, fates (before ++ after) tree node node members = .ok fused ∧
      fused.filterMap Prod.snd = second.filterMap Prod.snd := by
  induction members generalizing first second with
  | nil =>
      cases hfirst
      cases hsecond
      exact ⟨[], rfl, rfl⟩
  | cons member rest ih =>
      obtain ⟨left, others, hleft, hothers, rfl⟩ := fates_cons_eq_ok.mp hfirst
      have hmember := @onMemberAll_fused before after tree tree' node node' hafter hsame member
      rw [hleft, ok_bind] at hmember
      cases left with
      | none =>
          obtain ⟨fused, hfused, hkept⟩ := ih hothers hsecond
          exact ⟨(member, none) :: fused, fates_cons_eq_ok.mpr ⟨none, fused, hmember, hfused, rfl⟩,
            hkept⟩
      | some next =>
          obtain ⟨last, later, hlast, hlater, rfl⟩ := fates_cons_eq_ok.mp hsecond
          obtain ⟨fused, hfused, hkept⟩ := ih hothers hlater
          refine ⟨(member, last) :: fused,
            fates_cons_eq_ok.mpr ⟨last, fused, hmember.trans hlast, hfused, rfl⟩, ?_⟩
          rw [List.filterMap_cons, List.filterMap_cons, hkept]

/-! ## Nodes -/

/-- Steps on members alone keep a node, with what they leave of its members and of those
further down. -/
theorem visit_membersOnly {steps : List PureStep} (hsteps : ∀ step ∈ steps, step.MembersOnly)
    {levels : Nat} {parent : Option Path} {left : Option Node} {tally : Tally} :
    visit steps tree (levels + 1) parent [] node = .ok (left, tally) ↔
      ∃ found children below,
        fates steps tree node node (Keyed.values node.members) = .ok found ∧
        siblings (visit steps tree levels (some (Rewriter.placeUnder parent node.name))) []
          (Keyed.values node.children) = .ok (children, below) ∧
        left = some (assemble node (Rewriter.placeUnder parent node.name)
          (found.filterMap Prod.snd) children) ∧
        tally = (tallyOf node node found).merge below := by
  rw [visit, Rule.onNodeAll_membersOnly (membersOnly_of_mem_rulesFor hsteps _), ok_bind]
  simp only [List.not_mem_nil, if_false]
  constructor
  · intro hvisit
    obtain ⟨found, hfound, hvisit⟩ := bind_eq_ok.mp hvisit
    obtain ⟨⟨children, below⟩, hchildren, hvisit⟩ := bind_eq_ok.mp hvisit
    cases hvisit
    exact ⟨found, children, below, hfound, hchildren, rfl, rfl⟩
  · rintro ⟨found, children, below, hfound, hchildren, rfl, rfl⟩
    rw [hfound, ok_bind, hchildren]
    rfl

theorem visit_ne_none {steps : List PureStep} (hsteps : ∀ step ∈ steps, step.MembersOnly)
    {levels : Nat} {parent : Option Path} (node : Node) (left : Option Node) (tally : Tally)
    (hvisit : visit steps tree levels parent [] node = .ok (left, tally)) : left ≠ none := by
  cases levels with
  | zero => cases hvisit
  | succ levels =>
      obtain ⟨_, _, _, -, -, rfl, -⟩ := (visit_membersOnly hsteps).mp hvisit
      exact Option.some_ne_none _

/-- Siblings that are all kept are kept one by one. -/
theorem siblings_kept {visit : List String → Node → Except Fault (Option Node × Tally)}
    (hminds : MindsNames visit)
    (hkept : ∀ node left tally, visit [] node = .ok (left, tally) → left ≠ none)
    {nodes kept : List Node} {tally : Tally}
    (hsiblings : siblings visit [] nodes = .ok (kept, tally)) :
    List.Forall₂ (fun node left => ∃ tally, visit [] node = .ok (some left, tally)) nodes kept ∧
      (kept.map Node.name).Nodup := by
  obtain ⟨answers, hanswers, rfl, -, hnames, -⟩ := (siblings_eq_ok_iff hminds).mp hsiblings
  refine ⟨?_, hnames⟩
  clear hnames hsiblings
  induction hanswers with
  | nil => exact .nil
  | @cons node answer _ _ hvisit _ ih =>
      obtain ⟨left, tally⟩ := answer
      cases left with
      | none => exact absurd rfl (hkept node none tally hvisit)
      | some left => exact .cons ⟨tally, hvisit⟩ ih

/-- Siblings that are kept one by one, under different names, are all kept. -/
theorem siblings_of_kept {visit : List String → Node → Except Fault (Option Node × Tally)}
    (hminds : MindsNames visit) {nodes kept : List Node}
    (hkept : List.Forall₂ (fun node left => ∃ tally, visit [] node = .ok (some left, tally))
      nodes kept) (hnames : (kept.map Node.name).Nodup) :
    ∃ tally, siblings visit [] nodes = .ok (kept, tally) := by
  have hanswers : ∃ answers, List.Forall₂ (fun node answer => visit [] node = .ok answer)
      nodes answers ∧ kept = answers.filterMap Prod.fst := by
    induction hkept with
    | nil => exact ⟨[], .nil, rfl⟩
    | cons hfirst _ ih =>
        obtain ⟨tally, hfirst⟩ := hfirst
        obtain ⟨answers, hanswers, rfl⟩ := ih (List.nodup_cons.mp hnames).2
        exact ⟨(some _, tally) :: answers, .cons hfirst hanswers, rfl⟩
  obtain ⟨answers, hanswers, rfl⟩ := hanswers
  exact ⟨_, (siblings_eq_ok_iff hminds).mpr ⟨answers, hanswers, rfl, rfl, hnames, by simp⟩⟩

/-- Items are related through those in the middle. -/
theorem forall₂_through {α β γ : Type} {R : α → β → Prop} {S : β → γ → Prop} {T : α → γ → Prop}
    {items : List α} {middle : List β} {others : List γ}
    (himp : ∀ item ∈ items, ∀ between other, R item between → S between other → T item other)
    (hitems : List.Forall₂ R items middle) (hothers : List.Forall₂ S middle others) :
    List.Forall₂ T items others := by
  induction hitems generalizing others with
  | nil =>
      cases hothers
      exact .nil
  | cons hitem _ ih =>
      obtain ⟨hfirst, hrest⟩ := List.forall_mem_cons.mp himp
      cases hothers with
      | cons hother hothers => exact .cons (hfirst _ _ hitem hother) (ih hrest hothers)

/-- What later steps leave of a node that earlier ones left, all steps leave together. -/
theorem visit_fused (hbefore : ∀ step ∈ before, step.MembersOnly)
    (hafter : ∀ step ∈ after, step.MembersOnly) {levels : Nat} {parent : Option Path}
    (hplaced : node.PlacedAt (Rewriter.placeUnder parent node.name)) {next last : Node}
    {tally tally' : Tally}
    (hfirst : visit before tree levels parent [] node = .ok (some next, tally))
    (hsecond : visit after tree' levels parent [] next = .ok (some last, tally')) :
    ∃ fused, visit (before ++ after) tree levels parent [] node = .ok (some last, fused) := by
  induction levels generalizing parent node next last tally tally' with
  | zero => cases hfirst
  | succ levels ih =>
      obtain ⟨first, children, below, hfates, hchildren, heq, -⟩ :=
        (visit_membersOnly hbefore).mp hfirst
      cases heq
      obtain ⟨second, children', below', hfates', hchildren', heq, -⟩ :=
        (visit_membersOnly hafter).mp hsecond
      cases heq
      rw [values_members_assemble] at hfates'
      rw [values_children_assemble] at hchildren'
      obtain ⟨hkept, -⟩ :=
        siblings_kept (visit_mindsNames _ _ _ _) (visit_ne_none hbefore) hchildren
      obtain ⟨hkept', hnames⟩ :=
        siblings_kept (visit_mindsNames _ _ _ _) (visit_ne_none hafter) hchildren'
      -- Between the two rewrites, guards see of the node what they saw before.
      have hsame : node.SameOutside (assemble node (Rewriter.placeUnder parent node.name)
          (first.filterMap Prod.snd) children) := by
        refine ⟨rfl, hplaced.path_eq, rfl, ?_⟩
        have hlength := hkept.length_eq
        rw [Keyed.values, List.length_map] at hlength
        rw [assemble, List.isEmpty_map, Bool.eq_iff_iff, List.isEmpty_iff_length_eq_zero,
          List.isEmpty_iff_length_eq_zero, hlength]
      obtain ⟨fused, hfused, hmembers⟩ := fates_fused hafter hsame hfates hfates'
      have hall : List.Forall₂ (fun child left => ∃ tally,
          visit (before ++ after) tree levels (some (Rewriter.placeUnder parent node.name)) []
            child = .ok (some left, tally)) (Keyed.values node.children) children' := by
        refine forall₂_through (fun child hchild between left hbetween hleft => ?_) hkept hkept'
        obtain ⟨tally, hbetween⟩ := hbetween
        obtain ⟨tally', hleft⟩ := hleft
        have hstands : child.PlacedAt (Rewriter.placeUnder
          (some (Rewriter.placeUnder parent node.name)) child.name) := hplaced.child_placed hchild
        exact ih hstands hbetween hleft
      obtain ⟨below, hsiblings⟩ := siblings_of_kept (visit_mindsNames _ _ _ _) hall hnames
      refine ⟨_, (visit_membersOnly (List.forall_mem_append.mpr ⟨hbefore, hafter⟩)).mpr
        ⟨fused, children', below, hfused, hsiblings, ?_, rfl⟩⟩
      rw [hmembers]
      rfl

end Walk

namespace Rewriter

variable {before after : List PureStep} {rewriter : Rewriter} {forest : Forest}

theorem settle_membersOnly {steps : List PureStep} (hsteps : ∀ step ∈ steps, step.MembersOnly)
    (hforest : forest.WellPlaced) : Walk.settle forest steps = .ok (forest, 0) :=
  hforest.settle_self fun step hstep => (hsteps step hstep).rule.onTree forest

/-- Two rewrites of members, one after the other, make of a forest what one rewrite by the
steps of both makes of it. -/
theorem apply_fused (hbefore : ∀ step ∈ before, step.MembersOnly)
    (hafter : ∀ step ∈ after, step.MembersOnly) (hne : before ≠ []) (hne' : after ≠ [])
    (hforest : forest.WellPlaced) {first second : Outcome}
    (hfirst : rewriter.apply before forest = .ok first)
    (hsecond : rewriter.apply after first.forest = .ok second) :
    ∃ tally, rewriter.apply (before ++ after) forest = .ok { forest := second.forest, tally } := by
  have hall : ∀ step ∈ before ++ after, step.MembersOnly :=
    List.forall_mem_append.mpr ⟨hbefore, hafter⟩
  have hplaced := wellPlaced_of_apply hne hfirst
  obtain ⟨hroots, -⟩ := (apply_eq_ok_iff hne (settle_membersOnly hbefore hforest)).mp hfirst
  obtain ⟨hroots', hclash⟩ :=
    (apply_eq_ok_iff hne' (settle_membersOnly hafter hplaced)).mp hsecond
  obtain ⟨hkept, -⟩ := Walk.siblings_kept (Walk.visit_mindsNames _ _ _ _)
    (Walk.visit_ne_none hbefore) hroots
  obtain ⟨hkept', hnames⟩ := Walk.siblings_kept (Walk.visit_mindsNames _ _ _ _)
    (Walk.visit_ne_none hafter) hroots'
  have heach : List.Forall₂ (fun root left => ∃ tally,
      Walk.visit (before ++ after) forest rewriter.levels none [] root = .ok (some left, tally))
      forest.roots second.forest.roots := by
    refine Walk.forall₂_through (fun root hroot between left hbetween hleft => ?_) hkept hkept'
    obtain ⟨tally, hbetween⟩ := hbetween
    obtain ⟨tally', hleft⟩ := hleft
    have hstands : root.PlacedAt (placeUnder none root.name) := hforest.placed root hroot
    exact Walk.visit_fused hbefore hafter hstands hbetween hleft
  obtain ⟨tally, hsiblings⟩ :=
    Walk.siblings_of_kept (Walk.visit_mindsNames _ _ _ _) heach hnames
  exact ⟨tally, (apply_eq_ok_iff (by simp [hne]) (settle_membersOnly hall hforest)).mpr
    ⟨hsiblings, hclash⟩⟩

/-- A root with three members and a child with two. -/
def arbour : Forest :=
  .ofRoots [((((Node.named "r").withMember (.named "m")).withMember (.named "n")).withMember
    (.named "k")).withChild (((Node.named "c").withMember (.named "m")).withMember (.named "n"))]

theorem arbour_wellPlaced : arbour.WellPlaced := by
  refine Forest.wellPlaced_iff.mpr ⟨rfl, ?_, ?_, ?_⟩ <;> decide

/-- The members of the root exchange their names, and then those of one name are documented. -/
def earlySteps : List PureStep :=
  [{ name := "turn", guard := some (.nodeNamed "r"),
     rule := .mapMemberNames [("m", "n"), ("n", "k"), ("k", "m")] },
    .ofRule (.documentMember "m" (some "seen"))]

/-- A member is taken from the root, and its name is given to another one. -/
def lateSteps : List PureStep :=
  [{ name := "drop", guard := some (.not .leaf), rule := .removeMember "k" },
    { name := "rename", guard := some (.depth 0), rule := .renameMember "m" "k" }]

theorem earlySteps_membersOnly : ∀ step ∈ earlySteps, step.MembersOnly := by
  refine List.forall_mem_cons.mpr ⟨⟨⟨fun _ => rfl, fun _ _ => rfl, fun _ _ _ _ _ => rfl⟩, ?_⟩,
    List.forall_mem_singleton.mpr
      ⟨⟨fun _ => rfl, fun _ _ => rfl, fun _ _ _ _ _ => rfl⟩, fun _ hguard => nomatch hguard⟩⟩
  rintro _ ⟨⟩
  exact Guard.Outside.seesOutside (.nodeNamed "r")

theorem lateSteps_membersOnly : ∀ step ∈ lateSteps, step.MembersOnly := by
  refine List.forall_mem_cons.mpr ⟨⟨⟨fun _ => rfl, fun _ _ => rfl, fun _ _ _ _ _ => rfl⟩, ?_⟩,
    List.forall_mem_singleton.mpr
      ⟨⟨fun _ => rfl, fun _ _ => rfl, fun _ _ _ _ _ => rfl⟩, ?_⟩⟩
  · rintro _ ⟨⟩
    exact Guard.Outside.seesOutside (.not .leaf)
  · rintro _ ⟨⟩
    exact Guard.Outside.seesOutside (.depth 0)

/-- A member that is documented. -/
def seenMember (name : String) : Member :=
  { name, documentation := some "seen" }

/-- What the early steps make of the arbour. -/
def arbourTurned : Outcome where
  forest := .ofRoots [((((Node.named "r").withMember (.named "n")).withMember (.named "k")).withMember
    (seenMember "m")).withChild
      (((Node.named "c").withMember (seenMember "m")).withMember (.named "n"))]
  tally := { nodesVisited := 2, membersRewritten := 4 }

/-- What the late steps make of that. -/
def arbourDone : Outcome where
  forest := .ofRoots [(((Node.named "r").withMember (.named "n")).withMember
    (seenMember "k")).withChild
      (((Node.named "c").withMember (seenMember "m")).withMember (.named "n"))]
  tally := { nodesVisited := 2, membersRemoved := 1, membersRewritten := 1 }

theorem apply_fused_arbour :
    (Rewriter.mk .refuse 3).apply earlySteps arbour = .ok arbourTurned ∧
      (Rewriter.mk .refuse 3).apply lateSteps arbourTurned.forest = .ok arbourDone ∧
      ∃ tally, (Rewriter.mk .refuse 3).apply (earlySteps ++ lateSteps) arbour =
        .ok { forest := arbourDone.forest, tally } := by
  have hturned : (Rewriter.mk .refuse 3).apply earlySteps arbour = .ok arbourTurned :=
    (apply_eq_rewrite _ (List.cons_ne_nil _ _) _).trans rfl
  have hdone : (Rewriter.mk .refuse 3).apply lateSteps arbourTurned.forest = .ok arbourDone :=
    (apply_eq_rewrite _ (List.cons_ne_nil _ _) _).trans rfl
  exact ⟨hturned, hdone, apply_fused earlySteps_membersOnly lateSteps_membersOnly
    (List.cons_ne_nil _ _) (List.cons_ne_nil _ _) arbour_wellPlaced hturned hdone⟩

end Rewriter

end TreePass
