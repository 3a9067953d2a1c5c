import TreePass.Proofs.Editing.Simulation
import TreePass.Proofs.Rewrite.Survey
import TreePass.Proofs.Rule.Plain
import TreePass.Rule.Stock

/-!
# The tally of a rewrite is a balanced ledger

What a rewrite counts adds up. Every visited node is removed or in the result; every
node that is visited is a root of the forest that the visit started from or a child of
a kept node, unless a step took the child away; and so for the members. The ledger is
balanced at every moment of the visit, if the nodes that are still to be visited are
counted as owed.
-/

namespace TreePass

/-- The ledger of a rewrite: the result and what was removed on the one side, what
was met and what was added on the other. -/
structure Report.Balanced (report : Report) : Prop where
  nodes : report.outcome.forest.nodeCount + report.outcome.tally.nodesRemoved =
    report.outcome.tally.nodesVisited
  children : report.outcome.tally.nodesVisited + report.outcome.tally.childrenRemoved =
    report.tree.roots.length + (report.kept.flatMap Node.children).length +
      report.outcome.tally.childrenAdded
  members : (report.outcome.forest.nodes.flatMap Node.members).length +
      report.outcome.tally.membersRemoved =
    (report.kept.flatMap Node.members).length + report.outcome.tally.membersAdded

/-- A rule that makes no map with a key twice where it is given none. -/
structure Rule.KeepsDistinct {σ : Type} (rule : Rule (Work σ)) : Prop where
  onTree : ∀ forest : Forest, forest.Distinct → Ensures (rule.onTree forest) Forest.Distinct
  onNode : ∀ (forest : Forest) (node : Node), node.Distinct →
    Ensures (rule.onNode forest node) fun left => ∀ kept ∈ left, kept.Distinct

theorem Rule.Plain.keepsDistinct {σ : Type} {rule : Rule (Work σ)} (hrule : rule.Plain) :
    rule.KeepsDistinct where
  onTree forest hforest := by
    obtain ⟨next, next', hnext, -, htwin⟩ := hrule.onTree_twins (.self hforest)
    rw [hnext]
    exact .pure htwin.distinct
  onNode forest node hnode := by
    obtain ⟨found, found', hfound, -, htwins⟩ := hrule.onNode_twins forest forest (.self hnode)
    rw [hfound]
    refine .pure fun kept hkept => ?_
    cases htwins with
    | none => cases hkept
    | some htwin =>
        cases hkept
        exact htwin.distinct

namespace Staging

/-- All members that are staged. -/
def members (staging : Staging) : List Member :=
  (staging.entries.map fun entry => entry.2.members).flatten

/-- What is staged at which path, without the rest of the entries. -/
def holdings (staging : Staging) : List (Path × List Member) :=
  staging.entries.map fun entry => (entry.1, entry.2.members)

theorem keys_eq_holdings (staging : Staging) :
    Keyed.keys staging.entries = staging.holdings.map Prod.fst := by
  rw [holdings, List.map_map]
  rfl

theorem members_eq_holdings (staging : Staging) :
    staging.members = (staging.holdings.map Prod.snd).flatten := by
  rw [members, holdings, List.map_map]
  rfl

theorem holdings_relist (staging : Staging) (parent : Option Path)
    (g : List String → List String) : (staging.relist parent g).holdings = staging.holdings := by
  cases parent with
  | none => rfl
  | some above =>
      have hkeys := Keyed.keys_update above
        (fun entry : Entry => { entry with children := g entry.children }) staging.entries
      have hmembers := Keyed.map_update (fun entry : Entry => entry.members) above
        (f := fun entry => { entry with children := g entry.children }) (fun _ => rfl)
        staging.entries
      rw [Keyed.keys, Keyed.keys] at hkeys
      rw [holdings, holdings, ← List.zip_map', ← List.zip_map', ← hkeys, ← hmembers]
      rfl

end Staging

namespace Rewriter

variable {σ : Type} {steps : List (Step (Work σ))} {tree : Forest}

/-! ## Counting -/

/-- Of two maps each has as many entries as there are keys that they share and keys
that only it has. -/
theorem length_add_countMissing {α : Type} {entries others : List (String × α)}
    (hentries : Keyed.Distinct entries) (hothers : Keyed.Distinct others) :
    entries.length + countMissing (Keyed.keys others) (Keyed.keys entries) =
      others.length + countMissing (Keyed.keys entries) (Keyed.keys others) := by
  have hsplit (map other : List (String × α)) : map.length =
      ((Keyed.keys map).filter fun key => (Keyed.keys other).contains key).length +
        countMissing (Keyed.keys map) (Keyed.keys other) := by
    have hlength : map.length = (Keyed.keys map).length := (List.length_map _).symm
    rw [hlength, countMissing]
    exact List.length_eq_length_filter_add fun key => (Keyed.keys other).contains key
  have hshared : ((Keyed.keys entries).filter fun key => (Keyed.keys others).contains key).Perm
      ((Keyed.keys others).filter fun key => (Keyed.keys entries).contains key) := by
    refine (List.perm_ext_iff_of_nodup (hentries.filter _) (hothers.filter _)).mpr fun key => ?_
    simp [and_comm]
  have hentriesSplit := hsplit entries others
  have hothersSplit := hsplit others entries
  have hlength := hshared.length_eq
  omega

/-- Members are left or counted as removed; besides, only rewritten ones are counted. If
none is counted, all are left as they were. -/
theorem foldMembers_counts (before node : Node) (tally : Tally) (members : List Member) :
    Ensures (foldMembers steps tree before node tally members) fun left =>
      ∃ removed rewritten, left.1.length + removed = members.length ∧
        left.2 = { tally with
          membersRemoved := tally.membersRemoved + removed
          membersRewritten := tally.membersRewritten + rewritten } ∧
        (removed = 0 → rewritten = 0 → left.1 = members) := by
  induction members generalizing tally with
  | nil => exact .pure ⟨0, 0, rfl, rfl, fun _ _ => rfl⟩
  | cons member rest ih =>
      rw [foldMembers]
      refine (Ensures.trivial _).bind fun answer _ => ?_
      cases answer with
      | none =>
          refine (ih _).mono fun left hleft => ?_
          obtain ⟨removed, rewritten, hlength, htally, -⟩ := hleft
          refine ⟨removed + 1, rewritten, by rw [List.length_cons]; omega, ?_, nofun⟩
          rw [htally, Nat.add_assoc, Nat.add_comm 1 removed]
      | some left =>
          refine (ih _).bind fun others hothers => ?_
          obtain ⟨removed, rewritten, hlength, htally, hsame⟩ := hothers
          refine .pure ⟨removed, rewritten + (if left = member then 0 else 1), ?_, ?_, ?_⟩
          · rw [List.length_cons, List.length_cons]
            omega
          · rw [htally]
            split <;> simp [Nat.add_assoc, Nat.add_comm 1 rewritten]
          · intro hremoved hrewritten
            obtain ⟨hothers, hleft⟩ := Nat.add_eq_zero_iff.mp hrewritten
            rw [hsame hremoved hothers, show left = member by simpa using hleft]

/-! ## Folds over steps -/

/-- What every step keeps of a node, all of them keep. -/
theorem foldNode_ensures {invariant : Node → Prop}
    (hsteps : ∀ step ∈ steps, ∀ node, invariant node →
      Ensures (step.rule.onNode tree node) fun left => ∀ kept ∈ left, invariant kept)
    (entered : Node) {current : Node} (hcurrent : invariant current) :
    Ensures (foldNode tree entered current steps) fun left => ∀ kept ∈ left, invariant kept := by
  induction steps generalizing current with
  | nil =>
      refine .pure fun kept hkept => ?_
      cases hkept
      exact hcurrent
  | cons step rest ih =>
      obtain ⟨hstep, hrest⟩ := List.forall_mem_cons.mp hsteps
      rw [foldNode]
      split
      next =>
        refine (hstep current hcurrent).bind fun left hleft => ?_
        cases left with
        | none => exact .pure fun kept hkept => nomatch hkept
        | some next => exact ih hrest (hleft next rfl)
      next => exact ih hrest hcurrent

theorem foldNode_distinct (hsteps : ∀ step ∈ steps, step.rule.KeepsDistinct) (entered : Node)
    {current : Node} (hcurrent : current.Distinct) :
    Ensures (foldNode tree entered current steps) fun left => ∀ kept ∈ left, kept.Distinct :=
  foldNode_ensures (fun step hstep => (hsteps step hstep).onNode tree) entered hcurrent

/-- The steps on the forest as a whole count nothing but themselves. -/
theorem foldTree_counts (tally : Tally) (forest : Forest) :
    Ensures (foldTree tally forest steps) fun settled =>
      ∃ changes, settled.2 = { tally with treeRewrites := changes } := by
  induction steps generalizing tally forest with
  | nil => exact .pure ⟨tally.treeRewrites, rfl⟩
  | cons step rest ih =>
      rw [foldTree]
      split
      next =>
        refine (Ensures.trivial _).bind fun next _ => (ih _ next).mono fun settled hsettled => ?_
        obtain ⟨changes, htally⟩ := hsettled
        refine ⟨changes, ?_⟩
        rw [htally]
        split <;> rfl
      next => exact ih tally forest

theorem foldTree_distinct (hsteps : ∀ step ∈ steps, step.rule.KeepsDistinct) (tally : Tally)
    {forest : Forest} (hforest : forest.Distinct) :
    Ensures (foldTree tally forest steps) fun settled =>
      settled.1.Distinct ∧ ∃ changes, settled.2 = { tally with treeRewrites := changes } := by
  refine Ensures.and ?_ (foldTree_counts tally forest)
  induction steps generalizing tally forest with
  | nil => exact .pure hforest
  | cons step rest ih =>
      obtain ⟨hstep, hrest⟩ := List.forall_mem_cons.mp hsteps
      rw [foldTree]
      split
      next =>
        exact (hstep.onTree forest hforest).bind fun next hnext => ih hrest _ hnext
      next => exact ih hrest tally hforest

/-! ## Staging a node -/

/-- The contents of an entry after a node is staged in it. -/
def filling (node : Node) (members : List Member) (content : Content) : Content where
  documentation := node.documentation
  attributes := node.attributes
  members := content.members ++ members

/-- Staging a node lists it, makes sure of its entry and fills that. -/
theorem stage_eq_ok {staging after : Staging} {parent : Option Path} {node : Node}
    {members : List Member} (hstage : stage staging parent node members = .ok after) :
    (∀ above, parent = some above → staging.contains above = true) ∧
      after = (((staging.relist parent (Staging.declare node.name)).ensureEntry
        (placeUnder parent node.name) node.name).edit (placeUnder parent node.name)
          (filling node members)).2 := by
  cases parent with
  | none =>
      cases hstage
      exact ⟨fun above habove => (nomatch habove), rfl⟩
  | some above =>
      by_cases habove : staging.contains above = true
      · refine ⟨fun _ heq => Option.some.inj heq ▸ habove, ?_⟩
        have hadded : staging.addChild above node.name =
            (true, (staging.addChild above node.name).2) := by
          rw [Staging.addChild, if_pos habove]
        rw [← Staging.addChild_eq habove]
        rw [stage] at hstage
        dsimp only at hstage
        rw [hadded] at hstage
        exact (Except.ok.inj hstage).symm
      · rw [stage] at hstage
        dsimp only at hstage
        rw [Staging.addChild, if_neg habove] at hstage
        cases hstage

theorem stage_mirrors {staging after : Staging} {trees : List Tree} {parent : Option Path}
    {node : Node} {members : List Member} (hmirrors : staging.Mirrors trees)
    (hstage : stage staging parent node members = .ok after) :
    ∃ grown, after.Mirrors grown := by
  obtain ⟨hparent, rfl⟩ := stage_eq_ok hstage
  have hsiblings : Tree.siblings? trees (Staging.placeOf parent) ≠ none := by
    cases parent with
    | none => exact Option.some_ne_none _
    | some above =>
        rw [Staging.placeOf, ← Option.isSome_iff_ne_none,
          ← hmirrors.siblings?_of_contains_parent, hparent above rfl]
  exact ⟨_, (hmirrors.plant parent node.name hsiblings).setContent parent node.name
    (filling node members)⟩

/-- Staging a node at a free path adds its entry with its members, and no other. -/
theorem stage_holdings {staging after : Staging} {parent : Option Path} {node : Node}
    {members : List Member}
    (hfree : ¬ staging.contains (placeUnder parent node.name) = true)
    (hstage : stage staging parent node members = .ok after) :
    after.holdings = staging.holdings ++ [(placeUnder parent node.name, members)] := by
  obtain ⟨-, rfl⟩ := stage_eq_ok hstage
  have hlisted := staging.holdings_relist parent (Staging.declare node.name)
  generalize staging.relist parent (Staging.declare node.name) = listed at hlisted
  rw [Staging.contains, Keyed.contains_iff_mem_keys, Staging.keys_eq_holdings, ← hlisted,
    ← Staging.keys_eq_holdings] at hfree
  have hensured : listed.ensureEntry (placeUnder parent node.name) node.name =
      { listed with
        entries := listed.entries ++ [(placeUnder parent node.name, Entry.named node.name)] } := by
    rw [Staging.ensureEntry, Staging.contains, Keyed.contains_eq_false_iff.mpr hfree,
      if_neg Bool.false_ne_true, Keyed.put_of_notMem _ hfree]
  rw [hensured, Staging.edit, Staging.updateEntry, Keyed.update_append_of_notMem _ _ hfree,
    ← hlisted]
  simp [Staging.holdings, Keyed.update, Entry.named, Entry.withContent, filling]

theorem stage_counts {staging after : Staging} {parent : Option Path} {node : Node}
    {members : List Member}
    (hfree : ¬ staging.contains (placeUnder parent node.name) = true)
    (hstage : stage staging parent node members = .ok after) :
    after.size = staging.size + 1 ∧
      after.members.length = staging.members.length + members.length := by
  have hholdings := stage_holdings hfree hstage
  constructor
  · simpa [Staging.holdings, Staging.size] using congrArg List.length hholdings
  · rw [Staging.members_eq_holdings, Staging.members_eq_holdings, hholdings]
    simp

/-! ## The ledger during a visit -/

/-- The ledger is balanced with a number of nodes that are still to be visited. -/
structure InBalance (roots owed : Nat) (survey : Survey) : Prop where
  nodes : survey.progress.staging.size + survey.progress.tally.nodesRemoved =
    survey.progress.tally.nodesVisited
  children : survey.progress.tally.nodesVisited + owed + survey.progress.tally.childrenRemoved =
    roots + (survey.kept.flatMap Node.children).length + survey.progress.tally.childrenAdded
  members : survey.progress.staging.members.length + survey.progress.tally.membersRemoved =
    (survey.kept.flatMap Node.members).length + survey.progress.tally.membersAdded
  mirrors : ∃ trees, survey.progress.staging.Mirrors trees

variable {roots owed : Nat} {survey : Survey} {node : Node}

/-- A removed node is no longer owed. -/
theorem InBalance.remove (hbalance : InBalance roots (owed + 1) survey) :
    InBalance roots owed { survey with
      progress := { survey.progress with
        tally := { survey.progress.tally with
          nodesVisited := survey.progress.tally.nodesVisited + 1
          nodesRemoved := survey.progress.tally.nodesRemoved + 1 } } } where
  nodes := congrArg (· + 1) hbalance.nodes
  children := by
    have hchildren := hbalance.children
    dsimp only at hchildren ⊢
    omega
  members := hbalance.members
  mirrors := hbalance.mirrors

/-- A kept node is no longer owed either; the children that it is kept with are. -/
theorem InBalance.keep (hbalance : InBalance roots (owed + 1) survey) {parent : Option Path}
    {kept : Node} {members : List Member} {tally : Tally} {staging : Staging}
    (hnode : node.Distinct) (hkept : kept.Distinct)
    (hfree : ¬ survey.progress.staging.contains (placeUnder parent kept.name) = true)
    {removed rewritten : Nat} (hmembers : members.length + removed = kept.members.length)
    (htally : tally = { countChanges node kept { survey.progress.tally with
        nodesVisited := survey.progress.tally.nodesVisited + 1 } with
      membersRemoved := (countChanges node kept survey.progress.tally).membersRemoved + removed
      membersRewritten := survey.progress.tally.membersRewritten + rewritten })
    (hstage : stage survey.progress.staging parent kept members = .ok staging) :
    InBalance roots (owed + kept.children.length)
      { progress := { staging, tally }, kept := survey.kept ++ [node] } := by
  obtain ⟨hsize, hstaged⟩ := stage_counts hfree hstage
  obtain ⟨trees, hmirrors⟩ := hbalance.mirrors
  have hchildrenChanged := length_add_countMissing hnode.children hkept.children
  have hmembersChanged := length_add_countMissing hnode.members hkept.members
  obtain ⟨hnodes, hchildrenBefore, hmembersBefore, -⟩ := hbalance
  subst htally
  refine ⟨?_, ?_, ?_, stage_mirrors hmirrors hstage⟩
  · simp only [countChanges]
    omega
  · simp only [countChanges, List.flatMap_append, List.flatMap_singleton, List.length_append,
      Node.childNames]
    omega
  · simp only [countChanges, List.flatMap_append, List.flatMap_singleton, List.length_append,
      Node.memberNames]
    omega

/-- Visits of all the nodes that are owed leave none owed. -/
theorem foldlM_inBalance {visit : Survey → Node → Work σ Survey}
    (hvisit : ∀ owed survey node, node.Distinct → InBalance roots (owed + 1) survey →
      Ensures (visit survey node) (InBalance roots owed))
    {nodes : List Node} (hnodes : ∀ node ∈ nodes, node.Distinct)
    (hbalance : InBalance roots (owed + nodes.length) survey) :
    Ensures (nodes.foldlM visit survey) (InBalance roots owed) := by
  induction nodes generalizing survey with
  | nil => exact .pure hbalance
  | cons node rest ih =>
      obtain ⟨hnode, hrest⟩ := List.forall_mem_cons.mp hnodes
      rw [List.foldlM_cons]
      exact (hvisit _ survey node hnode hbalance).bind fun after hafter => ih hrest hafter

theorem surveyVisit_inBalance (hsteps : ∀ step ∈ steps, step.rule.KeepsDistinct)
    (levels owed : Nat) (parent : Option Path) {survey : Survey} {node : Node}
    (hnode : node.Distinct) (hbalance : InBalance roots (owed + 1) survey) :
    Ensures (surveyVisit steps tree levels parent survey node) (InBalance roots owed) := by
  induction levels generalizing owed parent survey node with
  | zero => exact .throw _
  | succ levels ih =>
      rw [surveyVisit]
      refine (foldNode_distinct hsteps node hnode).bind fun left hleft => ?_
      cases left with
      | none => exact .pure hbalance.remove
      | some kept =>
          have hkept := hleft kept rfl
          dsimp only
          split
          next => exact .throw _
          next hfree =>
            refine (foldMembers_counts _ _ _ _).bind fun folded hfolded => ?_
            obtain ⟨members, tally⟩ := folded
            obtain ⟨removed, rewritten, hmembers, htally, -⟩ := hfolded
            refine Ensures.bind (.orRaise fun staging hstage => hstage) fun staging hstage => ?_
            rw [Keyed.values, List.length_map] at hmembers
            refine foldlM_inBalance (fun owed survey node hnode hbalance => ?_)
              (fun child hchild => ?_) ?_
            · exact ih owed _ hnode hbalance
            · obtain ⟨entry, hentry, rfl⟩ := List.mem_map.mp hchild
              exact hkept.child hentry
            · have hkeep := hbalance.keep hnode hkept hfree hmembers htally hstage
              rwa [Keyed.values, List.length_map]

/-! ## The ledger in the end -/

/-- What is built has the nodes that are staged. -/
theorem build_entries {staging : Staging} {trees : List Tree} (hmirrors : staging.Mirrors trees)
    {policy : MissingChild} {forest : Forest} (hbuild : staging.build policy = .ok forest) :
    staging.entries.Perm (forest.nodes.map fun node => (node.path, Entry.ofNode node)) := by
  have hforest : forest = Tree.toForest trees := by
    rw [hmirrors.build_eq] at hbuild
    exact (unlessFault_eq_ok_iff.mp hbuild).2.symm
  rw [hforest]
  exact hmirrors.entries_perm

/-- What is built has as many nodes and as many members as are staged. -/
theorem build_counts {staging : Staging} {trees : List Tree} (hmirrors : staging.Mirrors trees)
    {policy : MissingChild} {forest : Forest} (hbuild : staging.build policy = .ok forest) :
    forest.nodeCount = staging.size ∧
      (forest.nodes.flatMap Node.members).length = staging.members.length := by
  have hperm := build_entries hmirrors hbuild
  refine ⟨by simpa [Staging.size, Forest.nodeCount] using hperm.length_eq.symm, ?_⟩
  have hmembers := (hperm.map fun entry => entry.2.members).flatten.length_eq
  have hvalues : (forest.nodes.flatMap Node.members).map Prod.snd =
      forest.nodes.flatMap fun node => (Entry.ofNode node).members := List.map_flatMap
  rw [Staging.members, hmembers, List.map_map, ← List.flatMap_def]
  exact (List.length_map Prod.snd).symm.trans (congrArg List.length hvalues)

/-- The rewrite is its survey, and whatever the survey answers is a balanced ledger. -/
theorem apply_balanced (rewriter : Rewriter) (hsteps : steps ≠ [])
    (hdistinct : ∀ step ∈ steps, step.rule.KeepsDistinct) {forest : Forest}
    (hforest : forest.Distinct) :
    rewriter.apply steps forest = Report.outcome <$> rewriter.survey steps forest ∧
      Ensures (rewriter.survey steps forest) Report.Balanced := by
  refine ⟨apply_eq_survey rewriter hsteps forest, ?_⟩
  rw [Rewriter.survey]
  refine (foldTree_distinct hdistinct .zero hforest).bind fun settled hsettled => ?_
  obtain ⟨tree, tally⟩ := settled
  obtain ⟨htree, changes, rfl⟩ := hsettled
  dsimp only
  have hstart : InBalance tree.roots.length (0 + tree.roots.length)
      { progress := { tally := { Tally.zero with treeRewrites := changes } } } :=
    ⟨rfl, by simp [Tally.zero], rfl, [], .empty⟩
  refine Ensures.bind (foldlM_inBalance (fun owed survey node hnode hbalance => ?_) htree hstart)
    fun survey hbalance => ?_
  · exact surveyVisit_inBalance hdistinct _ owed none hnode hbalance
  · refine Ensures.bind (.orRaise fun built hbuilt => hbuilt) fun built hbuilt => .pure ?_
    obtain ⟨trees, hmirrors⟩ := hbalance.mirrors
    obtain ⟨hnodes, hmembers⟩ := build_counts hmirrors hbuilt
    exact ⟨hnodes ▸ hbalance.nodes, hbalance.children, hmembers ▸ hbalance.members⟩

/-- A root with a member, two children and a member in one of these. -/
def hedge : Forest :=
  .ofRoots [((Node.named "a").withMember (.named "m")).withChild
    ((Node.named "b").withMember (.named "n")) |>.withChild (.named "c")]

/-- Steps that remove a child, add a child that is visited in turn, take members away
at two levels, and count the nodes on which a function is called. -/
def hedgeSteps : List (Step (Work Nat)) :=
  [{ name := "clear", guard := some (.nodeNamed "a"), rule := .removeChild "c" },
    { name := "grow", guard := some (.nodeNamed "b"),
      rule := .composite "both"
        [.addChild ((Node.named "d").withMember (.named "m")), .renameNode "e"] },
    { name := "strip", rule := .removeMember "m" },
    { name := "prune", guard := some (.nodeNamed "d"), rule := .addMember (.named "o") },
    .ofRule (.observeNode (modify (· + 1)))]

theorem hedgeSteps_keepDistinct : ∀ step ∈ hedgeSteps, step.rule.KeepsDistinct := by
  have hchild : ((Node.named "d").withMember (.named "m")).Distinct := by decide
  have hboth : ∀ rule ∈ [Rule.addChild ((Node.named "d").withMember (.named "m")),
      (.renameNode "e" : Rule (Work Nat))], rule.Plain := by
    simpa using ⟨Rule.Plain.addChild hchild, .renameNode "e"⟩
  have hobserve : (Rule.observeNode (modify (· + 1)) : Rule (Work Nat)).KeepsDistinct := by
    refine ⟨fun forest hforest => .pure hforest, fun forest node hnode => ?_⟩
    exact (Ensures.trivial _).bind fun _ _ => .pure fun kept hkept => by cases hkept; exact hnode
  simp only [hedgeSteps, List.forall_mem_cons]
  exact ⟨(Rule.Plain.removeChild "c").keepsDistinct, (Rule.Plain.composite hboth).keepsDistinct,
    (Rule.Plain.removeMember "m").keepsDistinct, (Rule.Plain.addMember _).keepsDistinct, hobserve,
    by simp⟩

/-- The survey ends, so that its ledger is one. -/
theorem apply_balanced_hedge :
    hedgeSteps ≠ [] ∧ (∀ step ∈ hedgeSteps, step.rule.KeepsDistinct) ∧ hedge.Distinct ∧
      ∃ report after, (({} : Rewriter).survey hedgeSteps hedge).run.run 0 = (.ok report, after) ∧
        report.Balanced := by
  have hsteps : hedgeSteps ≠ [] := List.cons_ne_nil _ _
  have hdistinct : hedge.Distinct := by decide
  have hends : ((({} : Rewriter).survey hedgeSteps hedge).run.run 0).1.toOption.map
      (fun report => report.outcome.tally.nodesVisited) = some 3 := by
    decide +kernel
  obtain ⟨report, hrun, -⟩ := Work.exists_value hends
  have hbalanced := (apply_balanced {} hsteps hedgeSteps_keepDistinct hdistinct).2
  exact ⟨hsteps, hedgeSteps_keepDistinct, hdistinct, report, _, hrun, hbalanced 0 report _ hrun⟩

end Rewriter

end TreePass
