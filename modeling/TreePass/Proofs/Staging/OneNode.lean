import TreePass.Proofs.Forest.Standing
import TreePass.Proofs.Staging.Building
import TreePass.Proofs.Staging.Met

/-!
# Building one node

To build one node is to build the tree of its root and to look the node up there. So
nothing that is staged under other roots has a part in the answer. Where every root is
staged under its own name, the answer is what one finds in the forest of all roots, if
that can be built: the node at the path, or none, for a path that is registered but
listed by nobody.
-/

namespace TreePass.Staging

variable {staging other : Staging} {policy : MissingChild} {path : Path}

/-- What is staged as a root has the name of its place. -/
def NamesRoots (staging : Staging) : Prop :=
  ∀ name entry, staging.entry? (.single name) = some entry → entry.name = name

/-- The answer for a path once a forest has been built. -/
def answerAt (forest : Forest) (path : Path) : Except BuildFault Node :=
  (forest.find? path).elim (.error (.nodeNotFound path)) .ok

theorem buildNode_of_registered (policy : MissingChild) (hcontains : staging.contains path = true) :
    staging.buildNode policy path =
      staging.buildAt policy (.single path.root) >>= fun root =>
        answerAt (.ofRoots [root]) path := by
  simp only [buildNode, hcontains, Bool.not_true, Bool.false_eq_true, if_false]
  refine congrArg (staging.buildAt policy (.single path.root) >>= ·) (funext fun root => ?_)
  unfold answerAt
  cases (Forest.ofRoots [root]).find? path <;> rfl

/-- Under one root nothing is met that is staged under another one. -/
theorem buildNode_eq_of_root
    (hagrees : ∀ inner : Path, inner.root = path.root → staging.entry? inner = other.entry? inner)
    (policy : MissingChild) : staging.buildNode policy path = other.buildNode policy path := by
  have hroot : staging.buildAt policy (.single path.root) =
      other.buildAt policy (.single path.root) :=
    buildAt_congr hagrees (fun _ _ _ hinner _ _ => hinner) policy rfl
  rw [buildNode, buildNode, contains_eq_isSome, contains_eq_isSome, hagrees path rfl, hroot]

/-! ## Roots of a built forest -/

theorem name_of_buildAt {entry : Entry} {node : Node} (hentry : staging.entry? path = some entry)
    (hbuild : staging.buildAt policy path = .ok node) : node.name = entry.name := by
  rw [buildAt_of_registered hentry] at hbuild
  obtain ⟨members, -, hbuild⟩ := bind_eq_ok.mp hbuild
  obtain ⟨children, -, hbuild⟩ := bind_eq_ok.mp hbuild
  cases hbuild
  rfl

theorem NamesRoots.name_of_buildRoot (hnames : staging.NamesRoots) {name : String} {root : Node}
    (hroot : staging.buildRoot policy name = .ok root) : root.name = name := by
  unfold buildRoot at hroot
  split at hroot
  next hcontains =>
    obtain ⟨entry, hentry⟩ := Option.isSome_iff_exists.mp hcontains
    rw [name_of_buildAt hentry hroot, hnames name entry hentry]
  next =>
    cases policy with
    | refuse => cases hroot
    | fill =>
        cases hroot
        rfl

/-- A declared root is built, and it is the one that is found under its name. -/
theorem NamesRoots.root?_of_build (hnames : staging.NamesRoots) {forest : Forest}
    (hbuild : staging.build policy = .ok forest) {name : String} (hname : name ∈ staging.roots) :
    ∃ root, staging.buildRoot policy name = .ok root ∧ forest.root? name = some root.asRoot := by
  obtain ⟨roots, hroots, hforest⟩ := bind_eq_ok.mp hbuild
  cases hforest
  have hlabels : roots.map Node.name = staging.roots :=
    map_eq_of_mapM hroots fun _ _ => hnames.name_of_buildRoot
  have hplaced : (Forest.ofRoots roots).roots.map Node.name = staging.roots := by
    rw [← hlabels, Forest.ofRoots, List.map_map]
    exact List.map_congr_left fun root _ => root.name_asRoot
  obtain ⟨root, hroot⟩ := Forest.exists_root? (hplaced.symm ▸ hname)
  -- Whatever is found under the name was built for it.
  obtain ⟨source, hsource, rfl⟩ := List.mem_map.mp (Forest.mem_of_root? hroot)
  have hlabel : source.name = name := source.name_asRoot.symm.trans (Forest.name_of_root? hroot)
  obtain ⟨item, -, hitem⟩ := exists_of_mem_mapM hroots hsource
  rw [← hnames.name_of_buildRoot hitem, hlabel] at hitem
  exact ⟨source, hitem, hroot⟩

/-- Wherever edits lead, one node is built as the forest has it, if that can be built and
roots are staged under their own names. Whatever else is staged, a node is built alike
wherever the entries under its root are the same, so that nothing that is wrong under other
roots stands in the way. -/
theorem Reachable.buildNode_agrees (hreachable : staging.Reachable) (policy : MissingChild)
    (path : Path) :
    (staging.NamesRoots → staging.contains path = true → path.root ∈ staging.roots →
      ∀ forest, staging.build policy = .ok forest →
        (∀ node, forest.find? path = some node → staging.buildNode policy path = .ok node) ∧
          (forest.find? path = none →
            staging.buildNode policy path = .error (.nodeNotFound path))) ∧
      ∀ other : Staging,
        (∀ inner : Path, inner.root = path.root → staging.entry? inner = other.entry? inner) →
        staging.buildNode policy path = other.buildNode policy path := by
  refine ⟨fun hnames hcontains hdeclared forest hbuild => ?_,
    fun other hagrees => buildNode_eq_of_root hagrees policy⟩
  obtain ⟨root, hroot, hfound⟩ := hnames.root?_of_build hbuild hdeclared
  have hlabel := hnames.name_of_buildRoot hroot
  unfold buildRoot at hroot
  rw [if_pos (hreachable.sound.root_staged _ hdeclared)] at hroot
  -- Alone or among the other roots, the root of the path is found under its name.
  have halone : (Forest.ofRoots [root]).root? path.root = some root.asRoot := by
    simp [Forest.ofRoots, Forest.root?, root.name_asRoot, hlabel]
  have hanswer : staging.buildNode policy path = answerAt forest path := by
    rw [buildNode_of_registered policy hcontains, hroot, ok_bind, answerAt, answerAt,
      Forest.find?, Forest.find?, halone, hfound]
  constructor
  · intro node hnode
    rw [hanswer, answerAt, hnode, Option.elim_some]
  · intro hnone
    rw [hanswer, answerAt, hnone, Option.elim_none]

/-- A root that lists a gap and a child under another name than it has; a node is staged
where nobody lists it. There is a second root. -/
def mislabelled : Staging :=
  [Edit.addChild (.single "a") "k",
    .stageNode ⟨"a", ["k"]⟩ ((Node.named "x").withChild (.named "y")),
    .stageNode ⟨"a", ["z", "w"]⟩ (.named "w"), .addRoot "b"].foldl Edit.onStaging
    ((empty.addRoot "a").declareChild (.single "a") "g").2

/-- The same, where the second root has two members of one name. -/
def marred : Staging :=
  (mislabelled.edit (.single "b") fun _ => { members := [.named "m", .named "m"] }).2

theorem buildNode_agrees_mislabelled :
    mislabelled.Reachable ∧ mislabelled.NamesRoots ∧
      (∃ forest, mislabelled.build .fill = .ok forest ∧
        forest.find? ⟨"a", ["k", "y"]⟩ = some (.placed "y" ⟨"a", ["k", "y"]⟩) ∧
        forest.find? ⟨"a", ["z", "w"]⟩ = none) ∧
      mislabelled.buildNode .fill ⟨"a", ["k", "y"]⟩ = .ok (.placed "y" ⟨"a", ["k", "y"]⟩) ∧
      mislabelled.contains ⟨"a", ["z", "w"]⟩ = true ∧
      mislabelled.buildNode .fill ⟨"a", ["z", "w"]⟩ = .error (.nodeNotFound ⟨"a", ["z", "w"]⟩) ∧
      marred.build .fill = .error (.duplicateMember (.single "b") "m") ∧
      marred.buildNode .fill ⟨"a", ["k", "y"]⟩ = .ok (.placed "y" ⟨"a", ["k", "y"]⟩) := by
  have hchild : ((Node.named "x").withChild (.named "y")).Distinct := by decide
  have hlost : (Node.named "w").Distinct := by decide
  have hreachable : mislabelled.Reachable :=
    ((((((Reachable.empty.edit (.addRoot "a") trivial).declareChild (.single "a") "g").edit
      (.addChild (.single "a") "k") trivial).edit (.stageNode ⟨"a", ["k"]⟩ _) hchild).edit
      (.stageNode ⟨"a", ["z", "w"]⟩ _) hlost).edit (.addRoot "b") trivial)
  have hnames : mislabelled.NamesRoots := by
    intro name entry hentry
    have hmem : (Path.single name, entry) ∈ mislabelled.entries := Keyed.mem_of_get? hentry
    have hall : ∀ staged ∈ mislabelled.entries, staged.1.rest = [] →
        staged.2.name = staged.1.root := by decide
    exact hall _ hmem rfl
  have hbuild : (mislabelled.buildWithin .fill 3).run = some (mislabelled.build .fill) :=
    buildWithin_eq .fill (by decide)
  have hfault : (marred.buildWithin .fill 3).run = some (marred.build .fill) :=
    buildWithin_eq .fill (by decide)
  have hsame : ∀ inner : Path, inner.root = "a" →
      mislabelled.entry? inner = marred.entry? inner := by
    intro inner hinner
    have hne : Path.single "b" ≠ inner := by
      rintro rfl
      simp [Path.single] at hinner
    rw [marred, edit, entry?_updateEntry, if_neg hne]
  obtain ⟨hone, hother⟩ := Reachable.buildNode_agrees hreachable .fill ⟨"a", ["k", "y"]⟩
  obtain ⟨hlone, -⟩ := Reachable.buildNode_agrees hreachable .fill ⟨"a", ["z", "w"]⟩
  have hforest := Option.some.inj hbuild.symm
  have hnode := (hone hnames (by decide) (by decide) _ hforest).1 _ rfl
  have hnone := (hlone hnames (by decide) (by decide) _ hforest).2 rfl
  exact ⟨hreachable, hnames, ⟨_, hforest, rfl, rfl⟩, hnode, by decide, hnone,
    Option.some.inj hfault.symm, (hother marred hsame).symm.trans hnode⟩

end TreePass.Staging
