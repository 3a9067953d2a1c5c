import TreePass.Proofs.Forest.Standing
import TreePass.Proofs.Rewrite.Refinement
import TreePass.Proofs.Rule.Plain

/-!
# Rewrites that end

A visit goes down into what the steps have left of a node, so that a step that gives
every node a child keeps it from ending. If children are given only down to some depth,
then from there on each visit goes into a smaller node than before; until then, into
nodes that are no larger than what there was at the start and what is given. A visit
knows how deep it is by the recorded paths, which no plain rule brings out of step.
-/

namespace TreePass

/-- Bounds for each of some items give a bound for all of them. -/
theorem exists_bound {α : Type} {P : Nat → α → Prop} {items : List α}
    (hmono : ∀ bound more item, bound ≤ more → P bound item → P more item)
    (hitems : ∀ item ∈ items, ∃ bound, P bound item) : ∃ bound, ∀ item ∈ items, P bound item := by
  induction items with
  | nil => exact ⟨0, by simp⟩
  | cons item rest ih =>
      obtain ⟨⟨first, hfirst⟩, hrest⟩ := List.forall_mem_cons.mp hitems
      obtain ⟨later, hlater⟩ := ih hrest
      refine ⟨max first later, List.forall_mem_cons.mpr ⟨?_, fun other hother => ?_⟩⟩
      · exact hmono first _ item (Nat.le_max_left _ _) hfirst
      · exact hmono later _ other (Nat.le_max_right _ _) (hlater other hother)

/-! ## How far down nodes go -/

namespace Node

/-- The node stands at a path and is no more than the given number of nodes high. -/
def FitsAt : Nat → Path → Node → Prop
  | 0, _, _ => False
  | height + 1, path, node =>
      node.path = path ∧ ∀ entry ∈ node.children, entry.2.FitsAt height (path.child entry.1)

theorem FitsAt.mono {height more : Nat} {path : Path} {node : Node}
    (hfits : node.FitsAt height path) (hle : height ≤ more) : node.FitsAt more path := by
  induction height generalizing more path node with
  | zero => exact hfits.elim
  | succ height ih =>
      obtain ⟨more, rfl⟩ := Nat.exists_eq_add_of_le' (Nat.lt_of_lt_of_le height.succ_pos hle)
      refine ⟨hfits.1, fun entry hentry => ?_⟩
      exact ih (hfits.2 entry hentry) (Nat.le_of_succ_le_succ hle)

/-- A node is equally high wherever it is put. -/
theorem exists_fitsAt (node : Node) : ∃ height, ∀ path, (node.reroot path).FitsAt height path := by
  induction node using Node.induction with
  | step node ih =>
      obtain ⟨height, hheight⟩ := exists_bound
        (P := fun height (entry : String × Node) =>
          ∀ path, (entry.2.reroot path).FitsAt height path)
        (fun _ _ _ hle hfits path => (hfits path).mono hle) ih
      refine ⟨height + 1, fun path => ⟨node.path_reroot path, fun entry hentry => ?_⟩⟩
      rw [reroot_children] at hentry
      obtain ⟨child, hchild, rfl⟩ := List.mem_map.mp hentry
      exact hheight child hchild _

theorem StandsAt.exists_fitsAt {path : Path} {node : Node} (hstands : node.StandsAt path) :
    ∃ height, node.FitsAt height path := by
  obtain ⟨height, hfits⟩ := node.exists_fitsAt
  have hnode := hfits path
  rw [StandsAt] at hstands
  rw [hstands] at hnode
  exact ⟨height, hnode⟩

theorem FitsAt.withChild {height : Nat} {path : Path} {node child : Node}
    (hnode : node.FitsAt (height + 1) path)
    (hchild : ∀ place, (child.reroot place).FitsAt height place) :
    (node.withChild child).FitsAt (height + 1) path := by
  refine ⟨hnode.1, fun entry hentry => ?_⟩
  rcases Keyed.mem_put hentry with rfl | hold
  · rw [hnode.1]
    exact hchild _
  · exact hnode.2 entry hold

theorem FitsAt.withoutChild {height : Nat} {path : Path} {node : Node}
    (hnode : node.FitsAt (height + 1) path) (name : String) :
    (node.withoutChild name).FitsAt (height + 1) path :=
  ⟨hnode.1, fun entry hentry => hnode.2 entry (List.mem_filter.mp hentry).1⟩

end Node

/-! ## Rules that add children -/

namespace Rule

variable {m : Type → Type}

/-- The rule gives nodes a child, if only as one rule among several. -/
inductive Adds (child : Node) : Rule m → Prop where
  | addChild : Adds child (.addChild child)
  | composite {name : String} {rules : List (Rule m)} {rule : Rule m} (mem : rule ∈ rules)
      (adds : Adds child rule) : Adds child (.composite name rules)

/-- What the rule adds is no more than `height` nodes high. -/
def AddsWithin (height : Nat) (rule : Rule m) : Prop :=
  ∀ child, rule.Adds child → ∀ place, (child.reroot place).FitsAt height place

theorem AddsWithin.mono {height more : Nat} {rule : Rule m} (hrule : rule.AddsWithin height)
    (hle : height ≤ more) : rule.AddsWithin more :=
  fun child hadds place => (hrule child hadds place).mono hle

theorem Plain.exists_addsWithin {rule : Rule m} (hrule : rule.Plain) :
    ∃ height, rule.AddsWithin height := by
  induction hrule with
  | @addChild child hchild =>
      obtain ⟨height, hheight⟩ := child.exists_fitsAt
      refine ⟨height, fun other hadds => ?_⟩
      cases hadds
      exact hheight
  | composite _ ih =>
      obtain ⟨height, hheight⟩ := exists_bound (fun _ _ _ hle hrule => hrule.mono hle) ih
      refine ⟨height, fun child hadds => ?_⟩
      cases hadds with
      | composite hmem hadds => exact hheight _ hmem child hadds
  | _ => exact ⟨0, fun child hadds => by cases hadds⟩

variable [Monad m]

/-- A rule leaves a node that fits at a path, or nothing, without effects. -/
def LeavesFitting (height : Nat) (path : Path) (left : m (Option Node)) : Prop :=
  ∃ found, left = pure found ∧ ∀ kept ∈ found, kept.FitsAt height path

variable [LawfulMonad m] {forest : Forest} {height : Nat} {path : Path} {node : Node}

theorem onTreeAll_placed {rules : List (Rule m)}
    (hrules : ∀ rule ∈ rules, ∀ forest : Forest, forest.Placed →
      ∃ next, rule.onTree forest = pure next ∧ next.Placed) (hforest : forest.Placed) :
    ∃ next, onTreeAll forest rules = pure next ∧ next.Placed := by
  induction rules generalizing forest with
  | nil => exact ⟨forest, rfl, hforest⟩
  | cons rule rest ih =>
      obtain ⟨hrule, hrest⟩ := List.forall_mem_cons.mp hrules
      obtain ⟨next, hnext, hplaced⟩ := hrule forest hforest
      rw [onTreeAll, hnext, pure_bind]
      exact ih hrest hplaced

/-- A plain rule makes a forest, without effects, whose nodes stand at their keys. -/
theorem Plain.onTree_placed {rule : Rule m} (hrule : rule.Plain) (hforest : forest.Placed) :
    ∃ next, rule.onTree forest = pure next ∧ next.Placed := by
  induction hrule generalizing forest with
  | @addRoot root _ => exact ⟨_, rfl, hforest.withRoot root⟩
  | removeRoot name => exact ⟨_, rfl, hforest.withoutRoot name⟩
  | composite _ ih =>
      rw [onTree]
      exact onTreeAll_placed (fun rule hmem forest => ih rule hmem) hforest
  | _ => exact ⟨forest, rfl, hforest⟩

theorem onNodeAll_fitting {rules : List (Rule m)}
    (hrules : ∀ rule ∈ rules, ∀ node : Node, node.FitsAt height path →
      LeavesFitting height path (rule.onNode forest node))
    (hnode : node.FitsAt height path) :
    LeavesFitting height path (onNodeAll forest node rules) := by
  induction rules generalizing node with
  | nil => exact ⟨some node, rfl, by simpa using hnode⟩
  | cons rule rest ih =>
      obtain ⟨hrule, hrest⟩ := List.forall_mem_cons.mp hrules
      obtain ⟨found, hfound, hfits⟩ := hrule node hnode
      rw [onNodeAll, hfound, pure_bind]
      cases found with
      | none => exact ⟨none, rfl, by simp⟩
      | some kept => exact ih hrest (hfits kept rfl)

/-- A plain rule makes a node higher only by what it adds. -/
theorem Plain.onNode_fitting {rule : Rule m} (hrule : rule.Plain)
    (hadds : rule.AddsWithin height) (hnode : node.FitsAt (height + 1) path) :
    LeavesFitting (height + 1) path (rule.onNode forest node) := by
  have hkept (kept : Node) (hkept : kept.FitsAt (height + 1) path) :
      LeavesFitting (height + 1) path (pure (some kept) : m (Option Node)) :=
    ⟨some kept, rfl, by simpa using hkept⟩
  induction hrule generalizing node with
  | addChild _ => exact hkept _ (hnode.withChild (hadds _ .addChild))
  | removeChild name => exact hkept _ (hnode.withoutChild name)
  | removeNode => exact ⟨none, rfl, by simp⟩
  | addAttribute value target => cases target <;> exact hkept _ hnode
  | removeAttribute key target => cases target <;> exact hkept _ hnode
  | composite _ ih =>
      rw [onNode]
      refine onNodeAll_fitting (fun rule hmem node hnode => ih rule hmem ?_ hnode) hnode
      exact fun child hchild => hadds child (.composite hmem hchild)
  | _ => exact hkept _ hnode

end Rule

/-- The step gives children to no node that is deeper than `limit`. -/
def Step.GrowsWithin {m : Type → Type} (limit : Nat) (step : Step m) : Prop :=
  ∀ child, step.rule.Adds child → ∀ tree node, step.admits tree (.node node) = true →
    node.depth ≤ limit

/-! ## Walks that end -/

namespace Walk

/-- The answer does not come of a lack of levels. -/
def Ends {α : Type} (answer : Except Fault α) : Prop :=
  answer ≠ .error .tooDeep

theorem Ends.ok {α : Type} (value : α) : Ends (.ok value) := nofun

theorem Ends.build {α : Type} (fault : BuildFault) :
    Ends (.error (.build fault) : Except Fault α) := nofun

theorem Ends.bind {α β : Type} {answer : Except Fault α} {next : α → Except Fault β}
    (hanswer : Ends answer) (hnext : ∀ value, Ends (next value)) : Ends (answer >>= next) := by
  cases answer with
  | error fault => exact fun heq => hanswer (congrArg _ (Except.error.inj heq))
  | ok value => exact hnext value

theorem siblings_ends {visit : List String → Node → Except Fault (Option Node × Tally)}
    {nodes : List Node} (hvisit : ∀ node ∈ nodes, ∀ taken, Ends (visit taken node))
    (taken : List String) : Ends (siblings visit taken nodes) := by
  induction nodes generalizing taken with
  | nil => exact .ok _
  | cons node rest ih =>
      obtain ⟨hnode, hrest⟩ := List.forall_mem_cons.mp hvisit
      rw [siblings]
      refine (hnode taken).bind fun left => ?_
      exact (ih hrest _).bind fun others => .ok _

variable {steps : List PureStep} {tree : Forest}

theorem exists_fates {before kept : Node}
    (hleft : ∀ member, ∃ left, Rule.onMemberAll tree kept member
      (rulesFor steps tree (.member before member)) = .ok left) (members : List Member) :
    ∃ left, fates steps tree before kept members = .ok left := by
  induction members with
  | nil => exact ⟨[], rfl⟩
  | cons member rest ih =>
      obtain ⟨left, hleft⟩ := hleft member
      obtain ⟨others, hothers⟩ := ih
      rw [fates, hleft, hothers]
      exact ⟨(member, left) :: others, rfl⟩

/-- Plain rules never fail on members. -/
theorem exists_fates_of_plain (hplain : ∀ step ∈ steps, step.rule.Plain) (before kept : Node)
    (members : List Member) : ∃ left, fates steps tree before kept members = .ok left := by
  refine exists_fates (fun member => ?_) members
  have hrules : ∀ rule ∈ rulesFor steps tree (.member before member), ∀ member,
      ∃ left, ∀ forest node, rule.onMember forest node member = pure left := by
    intro rule hrule member
    obtain ⟨step, hstep, -, rfl⟩ := exists_of_mem_rulesFor hrule
    exact (hplain step hstep).onMember_eq member
  obtain ⟨left, hleft⟩ := Rule.onMemberAll_eq hrules member
  exact ⟨left, hleft tree kept⟩

/-- Plain steps that give children to no node deeper than `limit`, and no children of
more than `growth` nodes in height. -/
structure Bounded (steps : List PureStep) (limit growth : Nat) : Prop where
  plain : ∀ step ∈ steps, step.rule.Plain
  growsWithin : ∀ step ∈ steps, step.GrowsWithin limit
  addsWithin : ∀ step ∈ steps, step.rule.AddsWithin growth

variable {limit growth : Nat}

/-- What is left of a node is made higher only by steps that apply to it. -/
theorem Bounded.onNodeAll_fitting (hsteps : Bounded steps limit growth) {below : Nat}
    {path : Path} {node : Node} (hfits : node.FitsAt (below + 1) path)
    (hadds : ∀ step ∈ steps, step.admits tree (.node node) = true → step.rule.AddsWithin below) :
    ∃ left, Rule.onNodeAll tree node (rulesFor steps tree (.node node)) = .ok left ∧
      ∀ kept ∈ left, ∀ entry ∈ kept.children, entry.2.FitsAt below (path.child entry.1) := by
  have hrules : ∀ rule ∈ rulesFor steps tree (.node node), ∀ current : Node,
      current.FitsAt (below + 1) path →
      Rule.LeavesFitting (below + 1) path (rule.onNode tree current) := by
    intro rule hrule current hcurrent
    obtain ⟨step, hstep, hadmits, rfl⟩ := exists_of_mem_rulesFor hrule
    exact (hsteps.plain step hstep).onNode_fitting (hadds step hstep hadmits) hcurrent
  obtain ⟨left, hleft, hkept⟩ := Rule.onNodeAll_fitting hrules hfits
  exact ⟨left, hleft, fun kept hmem => (hkept kept hmem).2⟩

/-- Below what is left of a node, a visit is nearer to its end. It is one level further
down, as long as children are given, and in smaller nodes from then on. -/
theorem Bounded.onNodeAll_left (hsteps : Bounded steps limit growth) {height : Nat} {path : Path}
    {node : Node} (hnode : node.FitsAt height path)
    (hgrowth : path.depth ≤ limit → growth ≤ height) :
    ∃ left below, Rule.onNodeAll tree node (rulesFor steps tree (.node node)) = .ok left ∧
      (∀ kept ∈ left, ∀ entry ∈ kept.children, entry.2.FitsAt below (path.child entry.1)) ∧
      (path.depth + 1 ≤ limit → growth ≤ below) ∧
      limit + 1 - (path.depth + 1) + below < limit + 1 - path.depth + height := by
  cases height with
  | zero => exact hnode.elim
  | succ height =>
      by_cases hdepth : path.depth ≤ limit
      · obtain ⟨left, hleft, hkept⟩ := hsteps.onNodeAll_fitting (hnode.mono (height + 1).le_succ)
          fun step hstep _ => (hsteps.addsWithin step hstep).mono (hgrowth hdepth)
        exact ⟨left, height + 1, hleft, hkept, fun _ => hgrowth hdepth, by omega⟩
      · -- No step that adds children applies so far down.
        have hadds : ∀ step ∈ steps, step.admits tree (.node node) = true →
            step.rule.AddsWithin height := by
          intro step hstep hadmits child hadds
          have hle := hsteps.growsWithin step hstep child hadds tree node hadmits
          rw [Node.depth, hnode.1] at hle
          exact absurd hle hdepth
        obtain ⟨left, hleft, hkept⟩ := hsteps.onNodeAll_fitting hnode hadds
        exact ⟨left, height, hleft, hkept, fun hle => absurd (Nat.le_of_succ_le hle) hdepth,
          by omega⟩

/-- A visit ends within the levels that are left down to the limit and the height of
the nodes from there on. -/
theorem Bounded.visit_ends (hsteps : Bounded steps limit growth) {levels height : Nat}
    {path : Path} {node : Node} (hnode : node.FitsAt height path)
    (hgrowth : path.depth ≤ limit → growth ≤ height)
    (hlevels : limit + 1 - path.depth + height ≤ levels) (parent : Option Path)
    (taken : List String) : Ends (visit steps tree levels parent taken node) := by
  induction levels generalizing height path node parent taken with
  | zero =>
      obtain rfl : height = 0 := by omega
      exact hnode.elim
  | succ levels ih =>
      obtain ⟨left, below, hleft, hkept, hbelow, hless⟩ := hsteps.onNodeAll_left hnode hgrowth
      rw [visit, hleft]
      cases left with
      | none => exact .ok _
      | some kept =>
          simp only [ok_bind]
          split
          next => exact .build _
          next =>
            obtain ⟨fates, hfates⟩ : ∃ left, fates steps tree node kept
                (Keyed.values kept.members) = .ok left :=
              exists_fates_of_plain hsteps.plain node kept _
            rw [hfates, ok_bind]
            refine (siblings_ends (fun child hchild taken => ?_) []).bind fun children => .ok _
            obtain ⟨entry, hentry, rfl⟩ := List.mem_map.mp hchild
            have hdepth : (path.child entry.1).depth = path.depth + 1 := by
              simp [Path.depth, Path.child]
            refine ih (hkept kept rfl entry hentry) ?_ ?_ _ taken
            · rwa [hdepth]
            · rw [hdepth]
              omega

theorem exists_bounded (hplain : ∀ step ∈ steps, step.rule.Plain)
    (hgrows : ∀ step ∈ steps, step.GrowsWithin limit) : ∃ growth, Bounded steps limit growth := by
  obtain ⟨growth, hgrowth⟩ := exists_bound
    (P := fun growth (step : PureStep) => step.rule.AddsWithin growth)
    (fun _ _ _ hle hadds => hadds.mono hle) fun step hstep => (hplain step hstep).exists_addsWithin
  exact ⟨growth, hplain, hgrows, hgrowth⟩

/-! ## Settled forests -/

/-- Rules that settle a forest leave its nodes where they stand. -/
theorem settle_placed (hplain : ∀ step ∈ steps, step.rule.Plain) {forest : Forest}
    (hforest : forest.Placed) :
    ∃ settled changes, settle forest steps = .ok (settled, changes) ∧ settled.Placed := by
  induction steps generalizing forest with
  | nil => exact ⟨forest, 0, rfl, hforest⟩
  | cons step rest ih =>
      obtain ⟨hstep, hrest⟩ := List.forall_mem_cons.mp hplain
      rw [settle]
      split
      next =>
        obtain ⟨next, hnext, hplaced⟩ := hstep.onTree_placed hforest
        obtain ⟨settled, changes, hsettle, hsettled⟩ := ih hrest hplaced
        rw [hnext]
        exact ⟨settled, _, by rw [pure_bind, hsettle]; rfl, hsettled⟩
      next => exact ih hrest hforest

/-- The roots of a standing forest are walked to an end. -/
theorem Bounded.exists_levels (hsteps : Bounded steps limit growth) (hforest : tree.Placed) :
    ∃ levels, Ends (siblings (visit steps tree levels none) [] tree.roots) := by
  have hroots : ∀ root ∈ tree.roots, ∃ height, root.FitsAt height (.single root.name) :=
    fun root hroot => (Forest.placed_iff.mp hforest root hroot).exists_fitsAt
  obtain ⟨height, hheight⟩ := exists_bound (fun _ _ _ hle hfits => hfits.mono hle) hroots
  refine ⟨limit + 1 + (height + growth), siblings_ends (fun root hroot taken => ?_) []⟩
  have hfits := (hheight root hroot).mono (Nat.le_add_right height growth)
  exact hsteps.visit_ends hfits (fun _ => Nat.le_add_left _ _) (by simp [Path.depth, Path.single])
    none taken

/-! ## Walks that do not end -/

/-- A step that gives every node a child leads every visit further down. -/
theorem visit_addChild {step : PureStep} {child : Node} (hguard : step.guard = none)
    (hrule : step.rule = .addChild child) (levels : Nat) (parent : Option Path) (node : Node) :
    visit [step] tree levels parent [] node = .error .tooDeep := by
  have hrules (subject : Subject) : rulesFor [step] tree subject = [.addChild child] := by
    simp [rulesFor, Step.admits, hguard, hrule]
  induction levels generalizing parent node with
  | zero => rfl
  | succ levels ih =>
      -- The step has nothing to do with members, so that they are no hindrance.
      obtain ⟨fates, hfates⟩ : ∃ left, fates [step] tree node (node.withChild child)
          (Keyed.values (node.withChild child).members) = .ok left :=
        exists_fates (fun member => ⟨some member, by rw [hrules]; rfl⟩) _
      have hnode : Rule.onNodeAll tree node (rulesFor [step] tree (.node node)) =
          .ok (some (node.withChild child)) := by
        rw [hrules]
        rfl
      rw [visit, hnode]
      simp only [ok_bind, List.not_mem_nil, if_false, hfates]
      -- There is a child now, and the first of the children is visited next.
      cases hchildren : Keyed.values (node.withChild child).children with
      | nil =>
          have hmem : child.name ∈ Keyed.keys (node.withChild child).children :=
            Keyed.mem_keys_put.mpr (.inl rfl)
          rw [List.map_eq_nil_iff.mp hchildren] at hmem
          simp at hmem
      | cons first rest => rw [siblings, ih]; rfl

end Walk

namespace Rewriter

open Walk

/-- Plain steps that give children only down to some depth rewrite every forest to an
end: with enough levels the answer is always the same, and it is not that they were too
few. A single step that gives every node a child never ends on a forest with roots:
there are too few levels whatever their number. -/
theorem apply_ends :
    (∀ (steps : List PureStep) (limit : Nat) (forest : Forest),
      (∀ step ∈ steps, step.rule.Plain) → (∀ step ∈ steps, step.GrowsWithin limit) →
      forest.Placed →
      ∃ levels answer, Ends answer ∧
        ∀ rewriter : Rewriter, levels ≤ rewriter.levels → rewriter.apply steps forest = answer) ∧
    ∀ (step : PureStep) (child : Node) (forest : Forest),
      step.guard = none → step.rule = .addChild child → forest.roots ≠ [] →
      ∀ rewriter : Rewriter, rewriter.apply [step] forest = .error .tooDeep := by
  constructor
  · intro steps limit forest hplain hgrows hforest
    by_cases hsteps : steps = []
    · subst hsteps
      exact ⟨0, _, .ok _, fun rewriter _ => rfl⟩
    · obtain ⟨growth, hbounded⟩ := exists_bounded hplain hgrows
      obtain ⟨tree, changes, hsettle, htree⟩ := settle_placed hplain hforest
      obtain ⟨levels, hends⟩ := hbounded.exists_levels htree
      refine ⟨levels, ({ levels } : Rewriter).apply steps forest, ?_, fun rewriter hle => ?_⟩
      · rw [apply_of_settle _ hsteps hsettle]
        refine hends.bind fun left => ?_
        cases Forest.memberClash ⟨left.1⟩ with
        | none => exact .ok _
        | some fault => exact .build fault
      · rw [apply_of_settle rewriter hsteps hsettle, apply_of_settle _ hsteps hsettle,
          siblings_keeps (visit_keeps hle none) [] tree.roots hends]
  · intro step child forest hguard hrule hroots rewriter
    have hsettle : ∃ changes, settle forest [step] = .ok (forest, changes) := by
      rw [settle, Step.admits, hguard, hrule]
      exact ⟨_, rfl⟩
    obtain ⟨changes, hsettle⟩ := hsettle
    rw [apply_of_settle rewriter (List.cons_ne_nil _ _) hsettle]
    cases hcases : forest.roots with
    | nil => exact absurd hcases hroots
    | cons root rest => rw [siblings, visit_addChild hguard hrule]; rfl

/-- A root without children. -/
def seedling : Forest :=
  .ofRoots [.named "a"]

/-- Roots get a child that has a child, and another name; every node is documented. -/
def sproutSteps : List PureStep :=
  [{ name := "sprout"
     guard := some .root
     rule := .composite "grow"
       [.addChild ((Node.named "b").withChild (.named "c")), .renameNode "r"] },
    .ofRule (.setDocumentation (some "seen"))]

/-- Every node gets a child. -/
def rampant : PureStep :=
  .ofRule (.addChild (.named "b"))

theorem apply_ends_seedling :
    (∀ step ∈ sproutSteps, step.rule.Plain) ∧ (∀ step ∈ sproutSteps, step.GrowsWithin 0) ∧
      seedling.Placed ∧
      (∃ levels answer, Ends answer ∧ ∀ rewriter : Rewriter, levels ≤ rewriter.levels →
        rewriter.apply sproutSteps seedling = answer) ∧
      ∀ rewriter : Rewriter, rewriter.apply [rampant] seedling = .error .tooDeep := by
  have hplain : ∀ step ∈ sproutSteps, step.rule.Plain := by
    refine List.forall_mem_cons.mpr ⟨.composite ?_, List.forall_mem_singleton.mpr ?_⟩
    · refine List.forall_mem_cons.mpr ⟨.addChild (by decide), ?_⟩
      exact List.forall_mem_singleton.mpr (.renameNode "r")
    · exact .setDocumentation (some "seen")
  have hgrows : ∀ step ∈ sproutSteps, step.GrowsWithin 0 := by
    refine List.forall_mem_cons.mpr ⟨fun child _ tree node hadmits => ?_,
      List.forall_mem_singleton.mpr fun child hadds => by cases hadds⟩
    have hdepth : (node.depth == 0) = true := hadmits
    simpa using hdepth
  refine ⟨hplain, hgrows, rfl, apply_ends.1 sproutSteps 0 seedling hplain hgrows rfl, ?_⟩
  exact apply_ends.2 rampant (.named "b") seedling rfl rfl (List.cons_ne_nil _ _)

end Rewriter

end TreePass
