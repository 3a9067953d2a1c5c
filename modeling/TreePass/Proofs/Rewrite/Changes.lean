import TreePass.Proofs.Forest.Standing
import TreePass.Proofs.Rewrite.Balance
import TreePass.Proofs.Rewrite.Siblings
import TreePass.Proofs.Rewrite.WellPlaced

/-!
# Rewrites that count no change

A rewrite that counts no change leaves a node at the same paths as before, with the
same members in it, whatever effects the rules have. That takes one thing of the steps
on nodes: what they find under a key that they keep they leave there. A member or a
child that they put in the place of another one is not counted.
-/

namespace TreePass

namespace Node

/-! ## Names and members at every key -/

/-- The name of a node and its members by key, in no order. -/
def shape (node : Node) : String × Multiset (String × Member) :=
  (node.name, node.members)

/-- Alike nodes have one shape at every key. -/
theorem Alike.shape {node other : Node} (halike : node.Alike other) :
    node.Looks shape other :=
  Looks.weaken (g := fun face : Face => (face.name, face.members)) halike

mutual

/-- The members of a node and of everything below it, in no order, at the paths where
they are when the node is placed. -/
def holdings (path : Path) : Node → List (Path × Multiset Member)
  | ⟨_, _, _, members, children, _⟩ =>
      (path, (Keyed.values members : Multiset Member)) :: holdingsAll path children

/-- What is held in children, each of them placed under its name. -/
def holdingsAll (path : Path) : List (String × Node) → List (Path × Multiset Member)
  | [] => []
  | (_, child) :: rest => child.holdings (path.child child.name) ++ holdingsAll path rest

end

theorem holdings_eq (path : Path) (node : Node) : node.holdings path =
    (path, (Keyed.values node.members : Multiset Member)) ::
      (Keyed.values node.children).flatMap fun child => child.holdings (path.child child.name) := by
  have hchildren (children : List (String × Node)) : holdingsAll path children =
      (Keyed.values children).flatMap fun child => child.holdings (path.child child.name) := by
    induction children with
    | nil => rfl
    | cons entry rest ih => rw [holdingsAll, ih, Keyed.values_cons, List.flatMap_cons]
  rw [← hchildren]
  cases node
  rfl

/-- A placed node holds what is in it where it is. -/
theorem PlacedAt.holdings_eq {path : Path} {node : Node} (hplaced : node.PlacedAt path) :
    node.holdings path = node.preorder.map fun inner =>
      (inner.path, (Keyed.values inner.members : Multiset Member)) := by
  induction hplaced with
  | @intro path node hpath _ _ _ _ ih =>
      rw [Node.holdings_eq, preorder_eq, List.map_cons, hpath, List.map_flatMap]
      refine congrArg _ (List.flatMap_congr fun child hchild => ?_)
      obtain ⟨entry, hentry, rfl⟩ := List.mem_map.mp hchild
      exact ih entry hentry

theorem shape_eq_iff {node other : Node} : node.shape = other.shape ↔
    node.name = other.name ∧ node.members.Perm other.members := by
  simp [shape]

/-- Nodes of one shape at every key hold the same. -/
theorem Looks.holdings_perm {node other : Node} (hlooks : node.Looks shape other)
    (hnode : node.Distinct) (hother : other.Distinct) (path : Path) :
    (node.holdings path).Perm (other.holdings path) := by
  induction node using Node.induction generalizing other path with
  | step node ih =>
      obtain ⟨-, hmembers⟩ := shape_eq_iff.mp hlooks.top
      have hvalues : (Keyed.values node.members).Perm (Keyed.values other.members) :=
        hmembers.map Prod.snd
      rw [holdings_eq, holdings_eq, Multiset.coe_eq_coe.mpr hvalues]
      refine .cons _ (Keyed.flatMap_perm hnode.children hother.children hlooks.child ?_)
      intro entry hentry entry' hentry' hchild
      obtain ⟨hname, -⟩ := shape_eq_iff.mp hchild.top
      rw [hname]
      exact ih entry hentry hchild (hnode.child hentry) (hother.child hentry') _

/-! ## What is left under the keys -/

/-- Under a key of both, the node holds the member that it held before, and a child of
the same shape at every key. -/
structure Retains (kept node : Node) : Prop where
  member_eq : ∀ key, ∀ member ∈ kept.member? key, ∀ before ∈ node.member? key, member = before
  child_looks : ∀ key, ∀ child ∈ kept.child? key, ∀ before ∈ node.child? key,
    child.Looks shape before

namespace Retains

variable {kept node : Node}

/-- A node that has the same keys as before and retains what was under them holds the
same members. -/
theorem members_perm (hretains : kept.Retains node) (hkept : kept.Distinct)
    (hnode : node.Distinct) (hkeys : ∀ key, key ∈ kept.memberNames ↔ key ∈ node.memberNames) :
    kept.members.Perm node.members := by
  refine (Keyed.perm_iff_get? hkept.members hnode.members).mpr fun key => ?_
  have hrel := Keyed.rel_of_keys hkeys hretains.member_eq key
  generalize Keyed.get? key kept.members = found, Keyed.get? key node.members = found' at hrel
  cases hrel with
  | none => rfl
  | some heq => rw [heq]

theorem children_rel (hretains : kept.Retains node)
    (hkeys : ∀ key, key ∈ kept.childNames ↔ key ∈ node.childNames) (key : String) :
    Option.Rel (Looks shape) (kept.child? key) (node.child? key) :=
  Keyed.rel_of_keys hkeys hretains.child_looks key

end Retains

end Node

/-! ## Counting nothing -/

theorem Tally.changed_eq_false_iff {tally : Tally} : tally.changed = false ↔
    tally.treeRewrites = 0 ∧ tally.nodesRemoved = 0 ∧ tally.nodesRenamed = 0 ∧
      tally.childrenAdded = 0 ∧ tally.childrenRemoved = 0 ∧ tally.membersAdded = 0 ∧
      tally.membersRewritten = 0 ∧ tally.membersRemoved = 0 := by
  simp [changed, and_assoc]

namespace Rewriter

theorem countMissing_eq_zero {keys others : List String} :
    countMissing keys others = 0 ↔ ∀ key ∈ keys, key ∈ others := by
  simp [countMissing]

/-- Where nothing is counted at a kept node, it has the name and the keys that it had. -/
theorem keys_of_unchanged {before kept : Node} {tally : Tally} {removed rewritten : Nat}
    (hchanged : Tally.changed { countChanges before kept tally with
      membersRemoved := (countChanges before kept tally).membersRemoved + removed
      membersRewritten := (countChanges before kept tally).membersRewritten + rewritten } = false) :
    tally.changed = false ∧ kept.name = before.name ∧
      (∀ key, key ∈ kept.childNames ↔ key ∈ before.childNames) ∧
      (∀ key, key ∈ kept.memberNames ↔ key ∈ before.memberNames) ∧ removed = 0 ∧
      rewritten = 0 := by
  simp only [Tally.changed_eq_false_iff, countChanges, Nat.add_eq_zero_iff,
    countMissing_eq_zero] at hchanged
  obtain ⟨htree, hremoved, ⟨hrenamed, hname⟩, ⟨hadded, hnewChildren⟩, ⟨hdropped, hchildren⟩,
    ⟨hmembersAdded, hnewMembers⟩, ⟨hrewritten, hnone⟩, ⟨hmembersRemoved, hmembers⟩, hnone'⟩ :=
    hchanged
  refine ⟨Tally.changed_eq_false_iff.mpr ⟨htree, hremoved, hrenamed, hadded, hdropped,
    hmembersAdded, hrewritten, hmembersRemoved⟩, by simpa using hname,
    fun key => ⟨hnewChildren key, hchildren key⟩, fun key => ⟨hnewMembers key, hmembers key⟩,
    hnone', hnone⟩

variable {σ : Type} {steps : List (Step (Work σ))} {tree forest : Forest}

/-- At nodes like those of the forest, and in every forest that is the same, the steps on
nodes leave what they find under the keys that they keep. -/
def Retaining (steps : List (Step (Work σ))) (forest : Forest) : Prop :=
  ∀ tree : Forest, tree.same forest = true → ∀ node : Node, node.Distinct →
    (∃ met ∈ forest.nodes, node.Looks Node.shape met) →
      Ensures (foldNode tree node node steps) fun left => ∀ kept ∈ left, kept.Retains node

/-- The node is like one of the forest, and met in a forest that is the same. -/
structure Meets (tree forest : Forest) (node : Node) : Prop where
  same : tree.same forest = true
  distinct : node.Distinct
  like : ∃ met ∈ forest.nodes, node.Looks Node.shape met

/-- Children of the same shapes as those of a node like one of the forest are like nodes
of the forest as well. -/
theorem Meets.child {node kept : Node} (hnode : Meets tree forest node) (hkept : kept.Distinct)
    (hrel : ∀ key, Option.Rel (Node.Looks Node.shape) (kept.child? key) (node.child? key)) :
    ∀ child ∈ Keyed.values kept.children, Meets tree forest child := by
  intro child hchild
  obtain ⟨entry, hentry, rfl⟩ := List.mem_map.mp hchild
  refine ⟨hnode.same, hkept.child hentry, ?_⟩
  obtain ⟨met, hmet, hlooks⟩ := hnode.like
  have hfound : kept.child? entry.1 = some entry.2 :=
    Keyed.get?_eq_some_of_mem hkept.children hentry
  have hbefore := hrel entry.1
  have hlike := hlooks.child entry.1
  rw [hfound] at hbefore
  generalize node.child? entry.1 = found at hbefore hlike
  cases hbefore with
  | some hbefore =>
      cases hmetChild : met.child? entry.1 with
      | none =>
          rw [hmetChild] at hlike
          cases hlike
      | some last =>
          rw [hmetChild] at hlike
          cases hlike with
          | some hlike =>
              obtain ⟨root, hroot, hinner⟩ := List.mem_flatMap.mp hmet
              have hlast := Node.mem_preorder_of_child (Keyed.mem_of_get? hmetChild)
                last.mem_preorder_self
              exact ⟨last, List.mem_flatMap.mpr ⟨root, hroot, Node.mem_preorder_trans hinner hlast⟩,
                hbefore.trans hlike⟩

/-! ## Visits -/

/-- What is held in the staging area, with the members in no order. -/
def held (progress : Progress) : List (Path × Multiset Member) :=
  progress.staging.holdings.map fun holding => (holding.1, (holding.2 : Multiset Member))

/-- If nothing is counted in the end, nothing was before, and then the staging area holds
`more` than before, provided that what was visited was `met`. -/
def Adds (met : Prop) (more : List (Path × Multiset Member)) (before after : Progress) : Prop :=
  after.tally.changed = false →
    before.tally.changed = false ∧ (met → (held after).Perm (held before ++ more))

theorem foldlM_adds {visit : Progress → Node → Work σ Progress} {met : Node → Prop}
    {more : Node → List (Path × Multiset Member)}
    (hvisit : ∀ progress node, Ensures (visit progress node) (Adds (met node) (more node) progress))
    (progress : Progress) (nodes : List Node) :
    Ensures (nodes.foldlM visit progress)
      (Adds (∀ node ∈ nodes, met node) (nodes.flatMap more) progress) := by
  induction nodes generalizing progress with
  | nil => exact .pure fun hchanged => ⟨hchanged, fun _ => by simp⟩
  | cons node rest ih =>
      rw [List.foldlM_cons]
      refine (hvisit progress node).bind fun middle hmiddle => (ih middle).mono ?_
      intro after hafter hchanged
      obtain ⟨hchanged, hlater⟩ := hafter hchanged
      obtain ⟨hchanged, hfirst⟩ := hmiddle hchanged
      refine ⟨hchanged, fun hmet => ?_⟩
      obtain ⟨hnode, hrest⟩ := List.forall_mem_cons.mp hmet
      refine (hlater hrest).trans (((hfirst hnode).append_right _).trans ?_)
      rw [List.append_assoc, List.flatMap_cons]

/-- A node that is kept without any count is held as it was before, if its children are. -/
theorem Meets.keep {node kept : Node} (hnode : Meets tree forest node) (hkept : kept.Distinct)
    (hretains : kept.Retains node) (hname : kept.name = node.name)
    (hchildren : ∀ key, key ∈ kept.childNames ↔ key ∈ node.childNames)
    (hmembers : ∀ key, key ∈ kept.memberNames ↔ key ∈ node.memberNames) (parent : Option Path) :
    (kept.holdings (placeUnder parent kept.name)).Perm
      (node.holdings (placeUnder parent node.name)) := by
  have hlooks : kept.Looks Node.shape node :=
    .of_children (Node.shape_eq_iff.mpr
      ⟨hname, hretains.members_perm hkept hnode.distinct hmembers⟩) (hretains.children_rel hchildren)
  rw [hname]
  exact hlooks.holdings_perm hkept hnode.distinct _

/-- The steps leave a node that they meet distinct, with what was under the keys that it keeps. -/
theorem foldNode_retains (hdistinct : ∀ step ∈ steps, step.rule.KeepsDistinct)
    (hretaining : Retaining steps forest) (node : Node) :
    Ensures (foldNode tree node node steps) fun left => Meets tree forest node →
      ∀ kept ∈ left, kept.Distinct ∧ kept.Retains node := by
  intro before left after hrun hnode kept hkept
  exact ⟨foldNode_distinct hdistinct node hnode.distinct before left after hrun kept hkept,
    hretaining tree hnode.same node hnode.distinct hnode.like before left after hrun kept hkept⟩

/-- A visit adds what is held in the node, unless it counts a change. -/
theorem visit_adds (hdistinct : ∀ step ∈ steps, step.rule.KeepsDistinct)
    (hretaining : Retaining steps forest) (levels : Nat) (parent : Option Path)
    (progress : Progress) (node : Node) :
    Ensures (visit steps tree levels parent progress node)
      (Adds (Meets tree forest node) (node.holdings (placeUnder parent node.name)) progress) := by
  induction levels generalizing parent progress node with
  | zero => exact .throw _
  | succ levels ih =>
      rw [visit]
      refine (foldNode_retains hdistinct hretaining node).bind fun left hleft => ?_
      cases left with
      | none => exact .pure fun hchanged => by simp [Tally.changed_eq_false_iff] at hchanged
      | some kept =>
          dsimp only
          split
          next => exact .throw _
          next hfree =>
            refine (foldMembers_counts _ _ _ _).bind fun folded hfolded => ?_
            obtain ⟨members, tally⟩ := folded
            obtain ⟨removed, rewritten, -, htally, hsame⟩ := hfolded
            refine Ensures.bind (.orRaise fun staging hstage => stage_holdings hfree hstage) ?_
            intro staging hstaging
            refine (foldlM_adds (ih (some (placeUnder parent kept.name))) _ _).mono ?_
            intro after hafter hchanged
            obtain ⟨hchanged, hbelow⟩ := hafter hchanged
            dsimp only at htally hsame hchanged
            rw [htally] at hchanged
            obtain ⟨hbefore, hname, hchildren, hkeys, hremoved, hrewritten⟩ :=
              keys_of_unchanged hchanged
            refine ⟨?_, fun hnode => ?_⟩
            · rwa [Tally.changed_eq_false_iff] at hbefore ⊢
            · obtain ⟨hkept, hretains⟩ := hleft hnode kept rfl
              have hall := hnode.child hkept (hretains.children_rel hchildren)
              have hself : held { staging, tally } = held progress ++
                  [(placeUnder parent kept.name, (Keyed.values kept.members : Multiset Member))] := by
                rw [held, hstaging, hsame hremoved hrewritten, List.map_append]
                rfl
              refine (hbelow hall).trans ?_
              rw [hself, List.append_assoc, List.singleton_append]
              refine List.Perm.append_left _ ?_
              have hheld := hnode.keep hkept hretains hname hchildren hkeys parent
              rwa [Node.holdings_eq] at hheld

/-! ## Forests that are the same -/

/-- Steps on the forest as a whole that are not counted leave a forest that is the same. -/
theorem foldTree_unchanged (hdistinct : ∀ step ∈ steps, step.rule.KeepsDistinct) (tally : Tally)
    (hforest : forest.Distinct) :
    Ensures (foldTree tally forest steps) fun settled => settled.2.changed = false →
      tally.changed = false ∧ settled.1.same forest = true := by
  induction steps generalizing tally forest with
  | nil => exact .pure fun hchanged => ⟨hchanged, Forest.same_self hforest⟩
  | cons step rest ih =>
      obtain ⟨hstep, hrest⟩ := List.forall_mem_cons.mp hdistinct
      rw [foldTree]
      split
      next =>
        refine (hstep.onTree forest hforest).bind fun next hnext => ?_
        refine (Ensures.and (foldTree_distinct hrest _ hnext) (ih hrest _ hnext)).mono ?_
        rintro settled ⟨⟨hsettled, -⟩, hunchanged⟩ hchanged
        obtain ⟨hchanged, hsame⟩ := hunchanged hchanged
        cases hkept : next.same forest with
        | true =>
            rw [hkept, if_pos rfl] at hchanged
            exact ⟨hchanged, Forest.same_trans hsettled hnext hforest hsame hkept⟩
        | false => simp [hkept, Tally.changed_eq_false_iff] at hchanged
      next => exact ih hrest tally hforest

/-- Roots of forests that are the same hold the same. -/
theorem holdings_of_same (htree : tree.Distinct) (hforest : forest.Distinct)
    (hsame : tree.same forest = true) :
    (tree.roots.flatMap fun root => root.holdings (.single root.name)).Perm
      (forest.roots.flatMap fun root => root.holdings (.single root.name)) := by
  have halike := (Forest.same_iff_alike htree hforest).mp hsame
  rw [Forest.Distinct] at htree hforest
  generalize tree.roots = roots, forest.roots = others at htree hforest halike
  induction halike with
  | nil => exact .nil
  | cons hroot _ ih =>
      obtain ⟨hfirst, hrest⟩ := List.forall_mem_cons.mp htree
      obtain ⟨hfirst', hrest'⟩ := List.forall_mem_cons.mp hforest
      rw [List.flatMap_cons, List.flatMap_cons, Node.Alike.name_eq hroot]
      exact (hroot.shape.holdings_perm hfirst hfirst' _).append (ih hrest hrest')

theorem exists_of_forall₂ {α β : Type} {R : α → β → Prop} {items : List α} {others : List β}
    (hitems : List.Forall₂ R items others) : ∀ item ∈ items, ∃ other ∈ others, R item other := by
  induction hitems with
  | nil => simp
  | cons hfirst _ ih =>
      refine List.forall_mem_cons.mpr ⟨⟨_, List.mem_cons_self, hfirst⟩, fun item hitem => ?_⟩
      obtain ⟨other, hother, hrel⟩ := ih item hitem
      exact ⟨other, List.mem_cons_of_mem _ hother, hrel⟩

theorem meets_of_same (htree : tree.Distinct) (hforest : forest.Distinct)
    (hsame : tree.same forest = true) : ∀ root ∈ tree.roots, Meets tree forest root := by
  intro root hroot
  obtain ⟨met, hmet, halike⟩ :=
    exists_of_forall₂ ((Forest.same_iff_alike htree hforest).mp hsame) root hroot
  exact ⟨hsame, htree root hroot,
    met, List.mem_flatMap.mpr ⟨met, hmet, met.mem_preorder_self⟩, halike.shape⟩

/-- What a node holds, and where. -/
def holding (node : Node) : Path × Multiset Member :=
  (node.path, (Keyed.values node.members : Multiset Member))

theorem apply_unchanged (rewriter : Rewriter) (hsteps : steps ≠ [])
    (hdistinct : ∀ step ∈ steps, step.rule.KeepsDistinct) (hforest : forest.WellPlaced)
    (hretaining : Retaining steps forest) :
    Ensures (rewriter.apply steps forest) fun outcome => outcome.tally.changed = false →
      (outcome.forest.nodes.map holding).Perm (forest.nodes.map holding) := by
  have hdistinctForest := hforest.distinct
  rw [apply, if_neg (by simpa using hsteps)]
  refine (Ensures.and (foldTree_distinct hdistinct .zero hdistinctForest)
    (foldTree_unchanged hdistinct .zero hdistinctForest)).bind ?_
  rintro ⟨tree, tally⟩ ⟨⟨htree, -⟩, hsettled⟩
  have hmirrors : Ensures (tree.roots.foldlM (visit steps tree rewriter.levels none) { tally })
      fun after => ∃ trees, after.staging.Mirrors trees :=
    .foldlM (fun _ root hbefore => visit_keeps (fun staging => ∃ trees, staging.Mirrors trees)
      (fun htrees => htrees.elim fun _ => stage_mirrors) _ none hbefore root) _ ⟨[], .empty⟩
  refine (Ensures.and hmirrors
    (foldlM_adds (visit_adds hdistinct hretaining rewriter.levels none) _ _)).bind ?_
  rintro after ⟨⟨trees, hmirrors⟩, hadds⟩
  refine Ensures.bind (.orRaise fun built hbuilt => build_entries hmirrors hbuilt) ?_
  refine fun built hbuilt => .pure fun hchanged => ?_
  obtain ⟨hchanged, hheld⟩ := hadds hchanged
  obtain ⟨-, hsame⟩ := hsettled hchanged
  have hstaged : (held after).Perm (built.nodes.map holding) := by
    have hperm := hbuilt.map fun entry => (entry.1, (entry.2.members : Multiset Member))
    rw [List.map_map] at hperm
    rwa [held, Staging.holdings, List.map_map]
  have hroots : forest.nodes.map holding =
      forest.roots.flatMap fun root => root.holdings (.single root.name) := by
    rw [Forest.nodes, List.map_flatMap]
    exact List.flatMap_congr fun root hroot => (hforest.placed root hroot).holdings_eq.symm
  rw [hroots]
  exact hstaged.symm.trans ((hheld (meets_of_same htree hdistinctForest hsame)).trans
    (holdings_of_same htree hdistinctForest hsame))

/-- A rewrite that counts no change leaves nodes at the paths where they were before, with
the same members under the same names. -/
theorem unchanged_holdings (rewriter : Rewriter) (hsteps : steps ≠ [])
    (hdistinct : ∀ step ∈ steps, step.rule.KeepsDistinct) (hforest : forest.WellPlaced)
    (hretaining : Retaining steps forest) :
    Ensures (rewriter.apply steps forest) fun outcome => outcome.tally.changed = false →
      (∀ path, path ∈ outcome.forest.nodes.map Node.path ↔ path ∈ forest.nodes.map Node.path) ∧
        ∀ node ∈ outcome.forest.nodes, ∀ before ∈ forest.nodes, node.path = before.path →
          node.members.Perm before.members := by
  refine (Ensures.and (apply_wellPlaced rewriter hsteps forest)
    (apply_unchanged rewriter hsteps hdistinct hforest hretaining)).mono ?_
  rintro outcome ⟨hplaced, hunchanged⟩ hchanged
  have hperm := hunchanged hchanged
  refine ⟨fun path => ?_, fun node hnode before hbefore hpath => ?_⟩
  · have hpaths := hperm.map Prod.fst
    rw [List.map_map, List.map_map] at hpaths
    exact hpaths.mem_iff
  · obtain ⟨other, hother, heq⟩ :=
      List.mem_map.mp (hperm.mem_iff.mp (List.mem_map_of_mem hnode))
    obtain ⟨hother', hvalues⟩ := Prod.mk.inj heq
    -- In the forest there is only one node at the path.
    obtain rfl : other = before := List.inj_on_of_nodup_map
      (Forest.nodup_paths hforest.roots_nodup hforest.placed) hother hbefore (hother'.trans hpath)
    obtain ⟨-, -, -, hkeys⟩ := Forest.wellPlaced_iff.mp hforest
    obtain ⟨-, -, -, hkeys'⟩ := Forest.wellPlaced_iff.mp hplaced
    rw [← Keyed.map_values_label (hkeys' node hnode).1,
      ← Keyed.map_values_label (hkeys other hother).1]
    exact (Multiset.coe_eq_coe.mp hvalues.symm).map _

/-! ## Steps that put nothing into nodes -/

/-- What is under a key of the kept node is under that key of the node. -/
structure DrawsOn (kept node : Node) : Prop where
  member : ∀ key, ∀ member ∈ kept.member? key, member ∈ node.member? key
  child : ∀ key, ∀ child ∈ kept.child? key, child ∈ node.child? key

namespace DrawsOn

variable {last kept node : Node}

theorem refl (node : Node) : DrawsOn node node :=
  ⟨fun _ _ hmember => hmember, fun _ _ hchild => hchild⟩

theorem trans (hlast : DrawsOn last kept) (hkept : DrawsOn kept node) : DrawsOn last node :=
  ⟨fun key member hmember => hkept.member key member (hlast.member key member hmember),
    fun key child hchild => hkept.child key child (hlast.child key child hchild)⟩

theorem retains (hkept : DrawsOn kept node) : kept.Retains node := by
  refine ⟨fun key member hmember before hbefore => ?_, fun key child hchild before hbefore => ?_⟩
  · exact Option.mem_unique (hkept.member key member hmember) hbefore
  · rw [Option.mem_unique (hkept.child key child hchild) hbefore]
    exact .refl before

end DrawsOn

/-- The rule puts nothing under the keys of a node that was not there before. -/
def PutsNothing (rule : Rule (Work σ)) : Prop :=
  ∀ (tree : Forest) (node : Node), Ensures (rule.onNode tree node) fun left =>
    ∀ kept ∈ left, DrawsOn kept node

theorem foldNode_putsNothing (hsteps : ∀ step ∈ steps, PutsNothing step.rule)
    (entered current : Node) :
    Ensures (foldNode tree entered current steps) fun left =>
      ∀ kept ∈ left, DrawsOn kept current :=
  foldNode_ensures (fun step hstep node hnode => (hsteps step hstep tree node).mono
    fun _ hleft kept hkept => (hleft kept hkept).trans hnode) entered (.refl current)

/-- Steps that put nothing into nodes leave what they find under the keys that they keep. -/
theorem retaining_of_putsNothing (hsteps : ∀ step ∈ steps, PutsNothing step.rule)
    (forest : Forest) : Retaining steps forest :=
  fun _ _ node _ _ => (foldNode_putsNothing hsteps node node).mono
    fun _ hleft kept hkept => (hleft kept hkept).retains

/-- A root with a member and a child that has a child. -/
def pergola : Forest :=
  .ofRoots [((Node.named "a").withMember (.named "m")).withChild
    ((Node.named "c").withChild (.named "d"))]

theorem pergola_wellPlaced : pergola.WellPlaced := by
  refine Forest.wellPlaced_iff.mpr ⟨rfl, ?_, ?_, ?_⟩ <;> decide

/-- The steps look for a child and for a member that are not there, and document nodes. -/
def quietSteps : List (Step (Work Nat)) :=
  [.ofRule (.removeChild "x"), .ofRule (.setDocumentation (some "seen")),
    .ofRule (.renameMember "x" "y")]

theorem quietSteps_keepDistinct : ∀ step ∈ quietSteps, step.rule.KeepsDistinct :=
  List.forall_mem_cons.mpr ⟨(Rule.Plain.removeChild "x").keepsDistinct,
    List.forall_mem_cons.mpr ⟨(Rule.Plain.setDocumentation _).keepsDistinct,
      List.forall_mem_singleton.mpr (Rule.Plain.renameMember "x" "y").keepsDistinct⟩⟩

theorem quietSteps_putNothing : ∀ step ∈ quietSteps, PutsNothing step.rule := by
  refine List.forall_mem_cons.mpr ⟨fun _ node => .pure ?_,
    List.forall_mem_cons.mpr ⟨fun _ node => .pure ?_,
      List.forall_mem_singleton.mpr fun _ node => .pure ?_⟩⟩
  · rintro kept ⟨⟩
    refine ⟨fun _ _ hmember => hmember, fun key child hchild => ?_⟩
    rw [Node.child?, Node.withoutChild, Keyed.get?_erase] at hchild
    split at hchild
    next => cases hchild
    next => exact hchild
  · rintro kept ⟨⟩
    exact ⟨fun _ _ hmember => hmember, fun _ _ hchild => hchild⟩
  · rintro kept ⟨⟩
    exact .refl node

/-- Documenting nodes is not counted, and leaves paths and members as they are. -/
theorem unchanged_holdings_pergola :
    quietSteps ≠ [] ∧ (∀ step ∈ quietSteps, step.rule.KeepsDistinct) ∧ pergola.WellPlaced ∧
      Retaining quietSteps pergola ∧ ∃ outcome after,
        ((Rewriter.mk .refuse 4).apply quietSteps pergola).run.run 0 = (.ok outcome, after) ∧
        outcome.tally.changed = false ∧
        (∀ path, path ∈ outcome.forest.nodes.map Node.path ↔
          path ∈ pergola.nodes.map Node.path) ∧
        ∀ node ∈ outcome.forest.nodes, ∀ before ∈ pergola.nodes, node.path = before.path →
          node.members.Perm before.members := by
  have hsteps : quietSteps ≠ [] := List.cons_ne_nil _ _
  have hretaining := retaining_of_putsNothing quietSteps_putNothing pergola
  refine ⟨hsteps, quietSteps_keepDistinct, pergola_wellPlaced, hretaining, ?_⟩
  have hends : (((Rewriter.mk .refuse 4).apply quietSteps pergola).run.run 0).1.toOption.map
      (fun outcome => outcome.tally.changed) = some false := by
    decide +kernel
  obtain ⟨outcome, hrun, hchanged⟩ := Work.exists_value hends
  exact ⟨outcome, _, hrun, hchanged, unchanged_holdings (Rewriter.mk .refuse 4) hsteps
    quietSteps_keepDistinct pergola_wellPlaced hretaining 0 outcome _ hrun hchanged⟩

/-- A member that is put in the place of another one. -/
def seen : Member :=
  { name := "m", documentation := some "seen" }

def memberSteps : List (Step (Work Nat)) :=
  [{ name := "member", guard := some (.depth 0), rule := .addMember seen }]

/-- A child without children is put in the place of one that has some. -/
def childSteps : List (Step (Work Nat)) :=
  [{ name := "child", guard := some (.depth 0), rule := .addChild (.named "c") }]

/-- What is put in the place of something else under a key is not counted: neither a member
nor a child with everything below it. -/
theorem replacement_not_counted :
    (memberSteps ≠ [] ∧ (∀ step ∈ memberSteps, step.rule.KeepsDistinct) ∧ pergola.WellPlaced ∧
      ∃ outcome after,
        ((Rewriter.mk .refuse 4).apply memberSteps pergola).run.run 0 = (.ok outcome, after) ∧
        outcome.tally.changed = false ∧
        ∃ node ∈ outcome.forest.nodes, ∃ before ∈ pergola.nodes, node.path = before.path ∧
          ¬ node.members.Perm before.members) ∧
    childSteps ≠ [] ∧ (∀ step ∈ childSteps, step.rule.KeepsDistinct) ∧
      ∃ outcome after,
        ((Rewriter.mk .refuse 4).apply childSteps pergola).run.run 0 = (.ok outcome, after) ∧
        outcome.tally.changed = false ∧
        ∃ path ∈ pergola.nodes.map Node.path, path ∉ outcome.forest.nodes.map Node.path := by
  have hchild : (Node.named "c").Distinct := by decide
  refine ⟨⟨List.cons_ne_nil _ _, List.forall_mem_singleton.mpr
    (Rule.Plain.addMember seen).keepsDistinct, pergola_wellPlaced, ?_⟩, List.cons_ne_nil _ _,
    List.forall_mem_singleton.mpr (Rule.Plain.addChild hchild).keepsDistinct, ?_⟩
  · have hends : (((Rewriter.mk .refuse 4).apply memberSteps pergola).run.run 0).1.toOption.map
        (fun outcome => (outcome.tally.changed,
          outcome.forest.nodes.map fun node => (node.path, node.members))) =
        some (false, [(⟨"a", []⟩, [("m", seen)]), (⟨"a", ["c"]⟩, []), (⟨"a", ["c", "d"]⟩, [])]) := by
      decide +kernel
    obtain ⟨outcome, hrun, hshown⟩ := Work.exists_value hends
    obtain ⟨hchanged, hnodes⟩ := Prod.mk.inj hshown
    obtain ⟨node, hnode, heq⟩ := List.mem_map.mp (hnodes ▸ List.mem_cons_self)
    obtain ⟨hpath, hmembers⟩ := Prod.mk.inj heq
    refine ⟨outcome, _, hrun, hchanged, node, hnode, _, List.mem_cons_self, hpath, ?_⟩
    rw [hmembers]
    decide
  · have hends : (((Rewriter.mk .refuse 4).apply childSteps pergola).run.run 0).1.toOption.map
        (fun outcome => (outcome.tally.changed, outcome.forest.nodes.map Node.path)) =
        some (false, [⟨"a", []⟩, ⟨"a", ["c"]⟩]) := by
      decide +kernel
    obtain ⟨outcome, hrun, hshown⟩ := Work.exists_value hends
    obtain ⟨hchanged, hpaths⟩ := Prod.mk.inj hshown
    refine ⟨outcome, _, hrun, hchanged, ⟨"a", ["c", "d"]⟩, by decide, ?_⟩
    rw [hpaths]
    decide

end Rewriter

end TreePass
