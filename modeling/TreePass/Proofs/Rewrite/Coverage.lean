import TreePass.Proofs.Notes
import TreePass.Proofs.Rewrite.Balance
import TreePass.Proofs.Rewrite.Refinement
import TreePass.Rule.Stock

/-!
# What a guard of nodes covers

A guard without tests of members holds of a member exactly if it holds of its node. So
a step with such a guard reaches all members of the nodes that the guard holds of, as
they entered, and no others. The members are those that the steps on the node left, and
only the ones that the rule of an earlier step removes are missed. This shows in the notes
of a rewrite in which the rule of the step notes its calls, the rules before it what they
remove, and spies the rest: they can be read as visits that lead from the roots of the one
forest to the roots of the other.
-/

namespace TreePass

/-- A guard without tests of members. -/
inductive Guard.NodeScoped : Guard → Prop where
  | always : NodeScoped .always
  | never : NodeScoped .never
  | nodeNamed (name : String) : NodeScoped (.nodeNamed name)
  | nodeAt (path : Path) : NodeScoped (.nodeAt path)
  | under (path : Path) : NodeScoped (.under path)
  | depth (edges : Nat) : NodeScoped (.depth edges)
  | nodeTagged (key : String) : NodeScoped (.nodeTagged key)
  | hasMember (name : String) : NodeScoped (.hasMember name)
  | leaf : NodeScoped .leaf
  | treeContains (path : Path) : NodeScoped (.treeContains path)
  | treeTest (test : Forest → Bool) : NodeScoped (.treeTest test)
  | nodeTest (test : Forest → Node → Bool) : NodeScoped (.nodeTest test)
  | and {first second : Guard} (hfirst : NodeScoped first) (hsecond : NodeScoped second) :
      NodeScoped (.and first second)
  | or {first second : Guard} (hfirst : NodeScoped first) (hsecond : NodeScoped second) :
      NodeScoped (.or first second)
  | xor {first second : Guard} (hfirst : NodeScoped first) (hsecond : NodeScoped second) :
      NodeScoped (.xor first second)
  | not {guard : Guard} (hguard : NodeScoped guard) : NodeScoped (.not guard)
  | all {guards : List Guard} (hguards : ∀ guard ∈ guards, NodeScoped guard) :
      NodeScoped (.all guards)
  | any {guards : List Guard} (hguards : ∀ guard ∈ guards, NodeScoped guard) :
      NodeScoped (.any guards)

/-- A guard without tests of members holds of a member exactly if it holds of its node. -/
theorem Guard.NodeScoped.holds_member {guard : Guard} (hguard : guard.NodeScoped) (tree : Forest)
    (node : Node) (member : Member) :
    guard.holds tree (.member node member) = guard.holds tree (.node node) := by
  induction hguard with
  | and _ _ hfirst hsecond => rw [holds, holds, hfirst, hsecond]
  | or _ _ hfirst hsecond => rw [holds, holds, hfirst, hsecond]
  | xor _ _ hfirst hsecond => rw [holds, holds, hfirst, hsecond]
  | not _ hguard => rw [holds, holds, hguard]
  | all _ hguards => exact allHold_congr hguards
  | any _ hguards => exact anyHolds_congr hguards
  | _ => rfl

/-! ## Notes of a rewrite -/

/-- What is noted of a rewrite in which one step is watched. -/
inductive Note where
  /-- A node is visited, as it enters, in the forest that the first phase left. -/
  | entered (tree : Forest) (node : Node)
  /-- The steps have left this of the node. -/
  | kept (node : Node)
  /-- The steps come to a member. -/
  | began (member : Member)
  /-- The rule of a step before the watched one is called on this and removes the member. -/
  | removed (member : Member)
  /-- The steps before the watched one have left this of the member. -/
  | reached (member : Member)
  /-- The rule of the watched step is called on a member. -/
  | called (member : Member)

namespace Note

/-- Whether the note is the first one of a visit. -/
def isEntry : Note → Bool
  | .entered _ _ => true
  | _ => false

/-- The notes of one member, and what is left of it in the end. Unless the rule of an earlier
step removes the member, the watched rule is called on what those steps left of it if the
member is to be covered; else it is not called. -/
inductive OfMember (covered : Bool) (member : Member) : Option Member → List Note → Prop where
  | removed (current : Member) : OfMember covered member none [.began member, .removed current]
  | reached (current : Member) (left : Option Member) : OfMember covered member left
      (.began member :: .reached current :: if covered then [.called current] else [])

/-- The notes of members one after the other, and what is left of them. -/
inductive OfMembers (covered : Bool) : List Member → List Member → List Note → Prop where
  | nil : OfMembers covered [] [] []
  | cons {member : Member} {left : Option Member} {rest others : List Member}
      {notes more : List Note} (hmember : OfMember covered member left notes)
      (hrest : OfMembers covered rest others more) :
      OfMembers covered (member :: rest) (left.toList ++ others) (notes ++ more)

/-- The notes of visits of siblings one after the other, and the nodes that come of them. A kept
node is put together from what is left of the members and the children that its steps left;
the members are to be covered if the guard holds of the node as it entered. -/
inductive OfVisits (guard : Guard) (tree : Forest) :
    Option Path → List Node → List Node → List Note → Prop where
  | nil (parent : Option Path) : OfVisits guard tree parent [] [] []
  | removed {parent : Option Path} {entered : Node} {rest others : List Node} {more : List Note}
      (hrest : OfVisits guard tree parent rest others more) :
      OfVisits guard tree parent (entered :: rest) others (.entered tree entered :: more)
  | kept {parent : Option Path} {entered left : Node} {members : List Member}
      {children rest others : List Node} {ofMembers ofChildren more : List Note}
      (hmembers : OfMembers (guard.matchesNode tree entered) (Keyed.values left.members) members
        ofMembers)
      (hchildren : OfVisits guard tree (some (Rewriter.placeUnder parent left.name))
        (Keyed.values left.children) children ofChildren)
      (hrest : OfVisits guard tree parent rest others more) :
      OfVisits guard tree parent (entered :: rest)
        (Walk.assemble left (Rewriter.placeUnder parent left.name) members children :: others)
        (.entered tree entered :: .kept left :: ofMembers ++ ofChildren ++ more)

variable {guard : Guard} {tree : Forest}

theorem OfVisits.append {parent : Option Path} {nodes kept rest others : List Node}
    {notes more : List Note} (hfirst : OfVisits guard tree parent nodes kept notes)
    (hsecond : OfVisits guard tree parent rest others more) :
    OfVisits guard tree parent (nodes ++ rest) (kept ++ others) (notes ++ more) := by
  induction hfirst with
  | nil => exact hsecond
  | removed _ ih => exact .removed (ih hsecond)
  | kept hmembers hchildren _ _ ih =>
      rw [List.append_assoc]
      exact .kept hmembers hchildren (ih hsecond)

theorem OfMembers.countP_isEntry {covered : Bool} {members left : List Member}
    {notes : List Note} (hmembers : OfMembers covered members left notes) :
    notes.countP isEntry = 0 := by
  induction hmembers with
  | nil => rfl
  | cons hmember _ ih =>
      rw [List.countP_append, ih, Nat.add_zero]
      cases hmember with
      | removed => rfl
      | reached => cases covered <;> rfl

/-- If members are to be covered and one is left in the end, the rule was called. -/
theorem OfMembers.exists_called {members left : List Member} {notes : List Note}
    (hmembers : OfMembers true members left notes) {last : Member} (hlast : last ∈ left) :
    ∃ current, .called current ∈ notes := by
  induction hmembers with
  | nil => cases hlast
  | cons hmember _ ih =>
      rcases List.mem_append.mp hlast with hself | hrest
      · cases hmember with
        | removed => cases hself
        | reached current => exact ⟨current, by simp⟩
      · obtain ⟨current, hcalled⟩ := ih hrest
        exact ⟨current, List.mem_append_right _ hcalled⟩

/-- If the guard holds of siblings and one is kept with a member, the rule was called. -/
theorem OfVisits.exists_called {parent : Option Path} {nodes kept : List Node}
    {notes : List Note} (hvisits : OfVisits guard tree parent nodes kept notes)
    (hguard : ∀ node ∈ nodes, guard.matchesNode tree node = true) {node : Node}
    (hnode : node ∈ kept) (hmembers : node.members ≠ []) :
    ∃ current, .called current ∈ notes := by
  induction hvisits with
  | nil => cases hnode
  | removed _ ih =>
      obtain ⟨-, hrest⟩ := List.forall_mem_cons.mp hguard
      obtain ⟨current, hcalled⟩ := ih hrest hnode
      exact ⟨current, List.mem_cons_of_mem _ hcalled⟩
  | kept hleft _ _ _ ih =>
      obtain ⟨hentered, hrest⟩ := List.forall_mem_cons.mp hguard
      rcases List.mem_cons.mp hnode with rfl | hnode
      · rw [hentered] at hleft
        obtain ⟨last, hlast⟩ := List.exists_mem_of_ne_nil _ (mt List.map_eq_nil_iff.mpr hmembers)
        obtain ⟨current, hcalled⟩ := hleft.exists_called hlast
        exact ⟨current, by simp [hcalled]⟩
      · obtain ⟨current, hcalled⟩ := ih hrest hnode
        exact ⟨current, List.mem_append_right _ hcalled⟩

end Note

namespace Rewriter

variable {σ : Type}

/-- The steps, with notes taken of the calls of one of them, of what the ones before it remove
and of what comes to it. -/
def watched (before : List (Step (Work σ))) (step : Step (Work σ)) (after : List (Step (Work σ))) :
    List (Step (Work (σ × List Note))) :=
  .spy (fun tree node => [.entered tree node]) (fun member => [.began member]) ::
    (before.map (Step.noting (fun _ => []) fun member => [.removed member]) ++
      .spy (fun _ _ => []) (fun member => [.reached member]) ::
      step.noting (fun member => [.called member]) (fun _ => []) ::
      (after.map (Step.noting (fun _ => []) fun _ => []) ++
        [.spy (fun _ node => [.kept node]) fun _ => []]))

variable {guard : Guard} (before after : List (Step (Work σ))) {step : Step (Work σ)}

theorem foldTree_watched (tally : Tally) (forest : Forest) :
    Noted (foldTree tally forest (before ++ step :: after))
      (foldTree tally forest (watched before step after)) fun _ notes => notes = [] := by
  -- No spy is at work on the forest as a whole.
  rw [← List.append_nil (before ++ step :: after), List.append_assoc, List.cons_append]
  refine foldTree_noting before _ _ _ (fun tally forest => ?_) tally forest
  refine foldTree_noting [step] _ _ _ (fun tally forest => ?_) tally forest
  refine foldTree_noting after [] _ _ (fun tally forest => ?_) tally forest
  exact .pure rfl

theorem foldNode_watched (tree : Forest) (node : Node) :
    Noted (foldNode tree node node (before ++ step :: after))
      (foldNode tree node node (watched before step after))
      fun left notes => notes = .entered tree node :: (left.map Note.kept).toList := by
  rw [← List.append_nil (before ++ step :: after), List.append_assoc, List.cons_append]
  refine foldNode_spy ?_
  refine foldNode_noting before _ _ _ rfl (fun current => foldNode_spy ?_) node
  refine foldNode_noting [step] _ _ _ rfl (fun current => ?_) current
  refine foldNode_noting after [] _ _ rfl (fun current => foldNode_spy ?_) current
  exact .pure rfl

theorem foldMember_watched (hscoped : guard.NodeScoped) (hguard : step.guard = some guard)
    (tree : Forest) (entered left : Node) (member : Member) :
    Noted (foldMember tree entered left member member (before ++ step :: after))
      (foldMember tree entered left member member (watched before step after))
      (Note.OfMember (guard.matchesNode tree entered) member) := by
  rw [← List.append_nil (before ++ step :: after), List.append_assoc, List.cons_append]
  refine foldMember_spy ?_
  refine foldMember_noting before _ _ .removed (fun current => foldMember_spy ?_) member
  have hadmits : step.admits tree (.member entered member) = guard.matchesNode tree entered := by
    rw [Step.admits, hguard]
    exact hscoped.holds_member tree entered member
  have hafter (current : Member) :
      Noted (foldMember tree entered left member current (after ++ []))
        (foldMember tree entered left member current
          (after.map (Step.noting (fun _ => []) fun _ => []) ++
            [.spy (fun _ node => [Note.kept node]) fun _ => []])) fun _ notes => notes = [] := by
    refine foldMember_noting after [] _ (fun _ => rfl) (fun current => foldMember_spy ?_) current
    exact .pure rfl
  rw [foldMember, foldMember, Step.admits_noting, hadmits]
  cases guard.matchesNode tree entered with
  | false =>
      refine (hafter current).mono ?_
      rintro answer _ rfl
      exact .reached current answer
  | true =>
      refine (step.onMember_noting _ _ tree left current).bind ?_
      rintro answer _ rfl
      cases answer with
      | none => exact .pure (.reached current none)
      | some next =>
          refine (hafter next).mono ?_
          rintro answer _ rfl
          exact .reached current answer

/-! ## The visit -/

variable {steps : List (Step (Work σ))} {others : List (Step (Work (σ × List Note)))}
  {tree : Forest} {parent : Option Path} {taken : List String}

theorem foldMembers_watched {entered left : Node} {covered : Bool}
    (hmember : ∀ member, Noted (foldMember tree entered left member member steps)
      (foldMember tree entered left member member others) (Note.OfMember covered member))
    (tally : Tally) (members : List Member) :
    Noted (foldMembers steps tree entered left tally members)
      (foldMembers others tree entered left tally members)
      fun folded notes => Note.OfMembers covered members folded.1 notes := by
  induction members generalizing tally with
  | nil => exact .pure .nil
  | cons member rest ih =>
      rw [foldMembers, foldMembers]
      refine (hmember member).bind fun answer part hpart => ?_
      cases answer with
      | none => exact (ih _).mono fun _ notes hnotes => .cons hpart hnotes
      | some next =>
          refine (ih _).bind fun folded notes hnotes => .pure ?_
          rw [List.append_nil]
          exact .cons hpart hnotes

/-- Visits of siblings graft the nodes that come of them, under names that are new, and count
themselves. -/
structure Grafts (parent : Option Path) (taken : List String) (start last : Progress)
    (kept : List Node) (notes : List Note) : Prop where
  staging : last.staging = start.staging.graft parent kept
  placed : ∀ node ∈ kept, node.PlacedAt (placeUnder parent node.name)
  distinct : (kept.map Node.name).Nodup
  fresh : ∀ node ∈ kept, node.name ∉ taken
  counted : last.tally.nodesVisited = start.tally.nodesVisited + notes.countP Note.isEntry

/-- The notes tell how visits of siblings lead from one state of a rewrite to another. -/
def Visited (guard : Guard) (tree : Forest) (parent : Option Path) (taken : List String)
    (nodes : List Node) (start last : Progress) (notes : List Note) : Prop :=
  ∃ kept, Note.OfVisits guard tree parent nodes kept notes ∧
    Grafts parent taken start last kept notes

theorem Grafts.nil (parent : Option Path) (taken : List String) (progress : Progress) :
    Grafts parent taken progress progress [] [] where
  staging := (Staging.graft_nil _ _).symm
  placed := by simp
  distinct := List.nodup_nil
  fresh := by simp
  counted := rfl

/-- Siblings find the names of those before them taken. -/
theorem Grafts.append {first second third : Progress} {kept others : List Node}
    {notes more : List Note} (hopen : first.staging.Open parent taken)
    (hfirst : Grafts parent taken first second kept notes)
    (hsecond : Grafts parent (kept.map Node.name ++ taken) second third others more) :
    Grafts parent taken first third (kept ++ others) (notes ++ more) where
  staging := by
    rw [hsecond.staging, hfirst.staging, Staging.graft_graft hopen.parent_registered]
  placed := List.forall_mem_append.mpr ⟨hfirst.placed, hsecond.placed⟩
  distinct := by
    rw [List.map_append]
    refine hfirst.distinct.append hsecond.distinct fun name hname hother => ?_
    obtain ⟨other, hmem, rfl⟩ := List.mem_map.mp hother
    exact hsecond.fresh other hmem (List.mem_append_left _ hname)
  fresh := by
    refine List.forall_mem_append.mpr ⟨hfirst.fresh, fun other hmem htaken => ?_⟩
    exact hsecond.fresh other hmem (List.mem_append_right _ htaken)
  counted := by rw [hsecond.counted, hfirst.counted, List.countP_append, Nat.add_assoc]

/-- If each sibling is visited in a way that the notes tell, all of them are. -/
theorem foldlM_watched {visit : Progress → Node → Work σ Progress}
    {noting : Progress → Node → Work (σ × List Note) Progress}
    (hvisit : ∀ {taken start}, start.staging.Open parent taken → ∀ node,
      Noted (visit start node) (noting start node) (Visited guard tree parent taken [node] start))
    {start : Progress} (hopen : start.staging.Open parent taken) (nodes : List Node) :
    Noted (nodes.foldlM visit start) (nodes.foldlM noting start)
      (Visited guard tree parent taken nodes start) := by
  induction nodes generalizing taken start with
  | nil => exact .pure ⟨[], .nil parent, .nil parent taken start⟩
  | cons node rest ih =>
      rw [List.foldlM_cons, List.foldlM_cons]
      refine (hvisit hopen node).bind fun next notes hnotes => ?_
      obtain ⟨kept, hkept, hgrafts⟩ := hnotes
      have hnext : next.staging.Open parent (kept.map Node.name ++ taken) := by
        rw [hgrafts.staging]
        exact hopen.graft hgrafts.placed
      refine (ih hnext).mono fun last more hmore => ?_
      obtain ⟨others, hothers, hrest⟩ := hmore
      exact ⟨kept ++ others, hkept.append hothers, hgrafts.append hopen hrest⟩

/-- A node that is staged and whose children are then visited is grafted with them. -/
theorem Grafts.keep {start last : Progress} {left : Node} {members : List Member} {tally : Tally}
    {children : List Node} {ofMembers ofChildren : List Note} {covered : Bool}
    (hopen : start.staging.Open parent taken) (hnew : left.name ∉ taken)
    (htally : tally.nodesVisited = start.tally.nodesVisited + 1)
    (hmembers : Note.OfMembers covered (Keyed.values left.members) members ofMembers)
    (hchildren : Grafts (some (placeUnder parent left.name)) []
      { staging := start.staging.graft parent
          [Walk.assemble left (placeUnder parent left.name) members []], tally }
      last children ofChildren) (entered : Node) :
    Grafts parent taken start last
      [Walk.assemble left (placeUnder parent left.name) members children]
      (.entered tree entered :: .kept left :: ofMembers ++ ofChildren) where
  staging := by
    rw [hchildren.staging]
    exact Staging.graft_children (hopen.notMem_keys hnew) left members children
  placed := List.forall_mem_singleton.mpr
    (Walk.assemble_placed hchildren.distinct hchildren.placed)
  distinct := List.nodup_singleton _
  fresh := List.forall_mem_singleton.mpr hnew
  counted := by
    rw [hchildren.counted, htally, List.cons_append, List.cons_append, List.countP_cons,
      List.countP_cons, List.countP_append, hmembers.countP_isEntry]
    simp only [Note.isEntry, if_true, Bool.false_eq_true, if_false]
    omega

theorem visit_watched (hscoped : guard.NodeScoped) (hguard : step.guard = some guard)
    (levels : Nat) {start : Progress} (hopen : start.staging.Open parent taken) (node : Node) :
    Noted (visit (before ++ step :: after) tree levels parent start node)
      (visit (watched before step after) tree levels parent start node)
      (Visited guard tree parent taken [node] start) := by
  induction levels generalizing parent taken start node with
  | zero => exact .throw _ _
  | succ levels ih =>
      rw [visit, visit]
      refine (foldNode_watched before after tree node).bind ?_
      rintro answer _ rfl
      cases answer with
      | none =>
          refine .pure ⟨[], .removed (.nil parent), ?_⟩
          exact { Grafts.nil parent taken start with counted := rfl }
      | some left =>
          refine .throwIf _ fun hunstaged => ?_
          have hnew : left.name ∉ taken := mt (hopen.contains_iff left.name).mpr hunstaged
          have hmember := foldMember_watched before after hscoped hguard tree node left
          refine ((foldMembers_watched hmember _ _).ensuring (foldMembers_counts _ _ _ _)).bind ?_
          rintro ⟨members, tally⟩ ofMembers ⟨⟨removed, rewritten, -, htally, -⟩, hmembers⟩
          dsimp only at htally hmembers ⊢
          rw [Staging.stage_eq_graft hopen hnew]
          refine Noted.mono (foldlM_watched ih (hopen.below hnew members) _) ?_
          rintro last ofChildren ⟨children, hchildren, hgrafts⟩
          have hcount : tally.nodesVisited = start.tally.nodesVisited + 1 := by rw [htally]; rfl
          have hvisit := Note.OfVisits.kept hmembers hchildren (.nil parent)
          rw [List.append_nil] at hvisit
          exact ⟨_, hvisit, hgrafts.keep hopen hnew hcount hmembers node⟩

/-- What is built after visits of the roots is what came of them. -/
theorem Grafts.roots_eq {start last : Progress} {kept : List Node} {notes : List Note}
    (hstart : start.staging = .empty) (hgrafts : Grafts none [] start last kept notes)
    {policy : MissingChild} {forest : Forest} (hbuild : last.staging.build policy = .ok forest) :
    forest.roots = kept := by
  rw [hgrafts.staging, hstart, build_graft hgrafts.distinct hgrafts.placed] at hbuild
  obtain ⟨-, rfl⟩ := unlessFault_eq_ok_iff.mp hbuild
  rfl

/-- The notes of a rewrite tell how visits of the roots of the forest that the first phase left
lead to the roots of what is made. -/
theorem apply_watched (hscoped : guard.NodeScoped) (hguard : step.guard = some guard)
    {rewriter : Rewriter} {forest : Forest} {start stop : σ} {outcome : Outcome}
    (hrun : (rewriter.apply (before ++ step :: after) forest).run.run start =
      (.ok outcome, stop)) :
    ∃ tree tally settled notes,
      (foldTree .zero forest (before ++ step :: after)).run.run start =
        (.ok (tree, tally), settled) ∧
      Note.OfVisits guard tree none tree.roots outcome.forest.roots notes ∧
      notes.countP Note.isEntry = outcome.tally.nodesVisited ∧
      (rewriter.apply (watched before step after) forest).run.run (start, []) =
        (.ok outcome, (stop, notes)) := by
  have hsteps : (before ++ step :: after).isEmpty = false := by simp
  rw [apply, hsteps] at hrun
  obtain ⟨⟨tree, tally⟩, settled, hsettled, hrun⟩ := Work.run_bind_eq_ok.mp hrun
  obtain ⟨progress, visited, hvisited, hrun⟩ := Work.run_bind_eq_ok.mp hrun
  obtain ⟨built, last, hbuilt, hrun⟩ := Work.run_bind_eq_ok.mp hrun
  cases hrun
  obtain ⟨hbuild, rfl⟩ := Work.run_orRaise_eq_ok.mp hbuilt
  -- The first phase takes no notes; the visits take all of them, and none are taken after.
  obtain ⟨_, ⟨⟨changes, rfl⟩, rfl⟩, hquiet⟩ :=
    (foldTree_watched before after .zero forest).ensuring (foldTree_counts _ _) _ _ _ hsettled
  obtain ⟨notes, ⟨kept, hkept, hgrafts⟩, hnoting⟩ :=
    foldlM_watched (visit_watched before after hscoped hguard rewriter.levels)
      Staging.open_empty tree.roots settled progress visited hvisited
  refine ⟨tree, _, settled, notes, hsettled, ?_, ?_, ?_⟩
  · rw [hgrafts.roots_eq rfl hbuild]
    exact hkept
  · rw [hgrafts.counted]
    exact (Nat.zero_add _).symm
  · refine Work.run_bind_eq_ok.mpr ⟨_, _, hquiet [], ?_⟩
    refine Work.run_bind_eq_ok.mpr ⟨_, _, hnoting _, ?_⟩
    exact Work.run_bind_eq_ok.mpr ⟨_, _, Work.run_orRaise_eq_ok.mpr ⟨hbuild, rfl⟩, rfl⟩

end Rewriter

/-- A guard without tests of members holds of the members of the nodes that it holds of. In a
rewrite that succeeds, the rule of a step with the guard is called on each member that the
steps on a kept node left, unless the rule of an earlier step removes it, if the guard holds
of the node as it entered, and on no member of another node. To see this, the rewrite is done
with notes taken, which changes neither what it makes nor its effects; the notes tell of all
visits that it counts, which lead from the roots that the first phase left to the roots of
what is made. -/
theorem Guard.NodeScoped.covers {guard : Guard} (hscoped : guard.NodeScoped) :
    (∀ tree node member,
      guard.matchesMember tree node member = guard.matchesNode tree node) ∧
    ∀ {σ : Type} (rewriter : Rewriter) (before after : List (Step (Work σ)))
      (step : Step (Work σ)), step.guard = some guard → ∀ forest start outcome stop,
      (rewriter.apply (before ++ step :: after) forest).run.run start = (.ok outcome, stop) →
      ∃ tree tally settled notes,
        (Rewriter.foldTree .zero forest (before ++ step :: after)).run.run start =
          (.ok (tree, tally), settled) ∧
        Note.OfVisits guard tree none tree.roots outcome.forest.roots notes ∧
        notes.countP Note.isEntry = outcome.tally.nodesVisited ∧
        (rewriter.apply (Rewriter.watched before step after) forest).run.run (start, []) =
          (.ok outcome, (stop, notes)) := by
  refine ⟨hscoped.holds_member, fun rewriter before after step hguard forest start => ?_⟩
  intro outcome stop hrun
  exact Rewriter.apply_watched before after hscoped hguard hrun

/-- A root with a member and a child that has a member too. -/
def copse : Forest :=
  .ofRoots [((Node.named "a").withMember (.named "m")).withChild
    ((Node.named "b").withMember (.named "n"))]

/-- Nodes with children, told in a roundabout way. -/
def copseGuard : Guard :=
  .xor (.not (.all [.leaf, .nodeTest fun _ _ => true])) (.any [])

/-- Steps that give the root another member and take away the one that it has. -/
def copseSteps : List (Step (Work Nat)) :=
  [{ name := "grow", guard := some (.nodeNamed "a"), rule := .addMember (.named "o") },
    { name := "strip", rule := .removeMember "m" }]

/-- A step that counts the members on which it is called. -/
def copseCount : Step (Work Nat) :=
  { name := "count", guard := some copseGuard, rule := .observeMember (modify (· + 1)) }

/-- Of three members the rule is called on one. Another one is removed before, and the node of
the last one is a leaf. -/
theorem Guard.NodeScoped.covers_copse :
    copseGuard.NodeScoped ∧ ∃ outcome notes current,
      (({} : Rewriter).apply (copseSteps ++ copseCount :: []) copse).run.run 0 =
        (.ok outcome, 1) ∧
      outcome.forest.roots.map Node.memberNames = [["o"]] ∧
      Note.OfVisits copseGuard copse none copse.roots outcome.forest.roots notes ∧
      (({} : Rewriter).apply (Rewriter.watched copseSteps copseCount []) copse).run.run (0, []) =
        (.ok outcome, (1, notes)) ∧
      Note.called current ∈ notes := by
  have hscoped : copseGuard.NodeScoped := by
    refine .xor (.not (.all ?_)) (.any (by simp))
    simpa using ⟨.leaf, .nodeTest _⟩
  have hsettles : (Rewriter.foldTree .zero copse (copseSteps ++ copseCount :: [])).run.run 0 =
      (.ok (copse, .zero), 0) := by rfl
  have hguard : ∀ node ∈ copse.roots, copseGuard.matchesNode copse node = true := by
    decide +kernel
  have hends : ((({} : Rewriter).apply (copseSteps ++ copseCount :: []) copse).run.run
      0).1.toOption.map (fun outcome => outcome.forest.roots.map Node.memberNames) =
        some [["o"]] := by
    decide +kernel
  have hcount : ((({} : Rewriter).apply (copseSteps ++ copseCount :: []) copse).run.run 0).2 =
      1 := by decide +kernel
  obtain ⟨outcome, hrun, hleft⟩ := Work.exists_value hends
  rw [hcount] at hrun
  obtain ⟨tree, tally, settled, notes, hsettled, hnotes, -, hwatched⟩ :=
    hscoped.covers.2 {} copseSteps [] copseCount rfl copse 0 outcome 1 hrun
  rw [hsettles] at hsettled
  cases hsettled
  -- The root comes through with a member, so that the rule was called on one.
  obtain ⟨root, hroot, hnames⟩ : ∃ root ∈ outcome.forest.roots, root.memberNames = ["o"] :=
    List.mem_map.mp (by simp [hleft])
  have hmembers : root.members ≠ [] := by
    intro hnone
    rw [Node.memberNames, hnone] at hnames
    cases hnames
  obtain ⟨current, hcalled⟩ := hnotes.exists_called hguard hroot hmembers
  exact ⟨hscoped, outcome, notes, current, hrun, hleft, hnotes, hwatched, hcalled⟩

end TreePass
