import TreePass.Proofs.Answer
import TreePass.Proofs.Node.Standing
import TreePass.Staging.Build

/-!
# Building what is staged

A staging area carries a node when everything in the node has its entry at its
path. What is built from there is the node with its members under their names, unless
some node in it has two members of one name: then the build fails at the first of
these, each node before its children. If keys were names before, it is the node itself.
-/

namespace TreePass

/-! ## Names that occur twice -/

theorem firstRepeated_eq_none_iff {seen names : List String} :
    firstRepeated seen names = none ↔ names.Nodup ∧ ∀ name ∈ names, name ∉ seen := by
  induction names generalizing seen with
  | nil => simp [firstRepeated]
  | cons name rest ih =>
      rw [firstRepeated, List.nodup_cons, List.forall_mem_cons]
      split
      next hseen => simp_all
      next hnew =>
        simp only [List.contains_iff_mem] at hnew
        rw [ih]
        simp only [List.mem_cons, not_or]
        constructor
        · rintro ⟨hnodup, hrest⟩
          exact ⟨⟨fun hmem => (hrest name hmem).1 rfl, hnodup⟩, hnew,
            fun other hother => (hrest other hother).2⟩
        · rintro ⟨⟨hname, hnodup⟩, -, hrest⟩
          exact ⟨hnodup, fun other hother => ⟨fun heq => hname (heq ▸ hother), hrest other hother⟩⟩

/-- The first repeated name is there before, and no name before it is. -/
theorem firstRepeated_eq_some_iff {seen names : List String} {name : String} :
    firstRepeated seen names = some name ↔
      ∃ earlier later, names = earlier ++ name :: later ∧
        firstRepeated seen earlier = none ∧ (name ∈ seen ∨ name ∈ earlier) := by
  induction names generalizing seen with
  | nil => simp [firstRepeated]
  | cons first rest ih =>
      rw [firstRepeated]
      split
      next hseen =>
        constructor
        · rintro ⟨⟩
          exact ⟨[], rest, rfl, rfl, .inl (by simpa using hseen)⟩
        · rintro ⟨earlier, later, heq, hnone, -⟩
          cases earlier with
          | nil => rw [(List.cons.inj heq).1]
          | cons other earlier =>
              obtain ⟨rfl, -⟩ := List.cons.inj heq
              rw [firstRepeated, if_pos hseen] at hnone
              cases hnone
      next hfirst =>
        rw [ih]
        constructor
        · rintro ⟨earlier, later, rfl, hnone, hname⟩
          refine ⟨first :: earlier, later, rfl, by rw [firstRepeated, if_neg hfirst, hnone], ?_⟩
          simpa [or_assoc, or_left_comm] using hname
        · rintro ⟨earlier, later, heq, hnone, hname⟩
          cases earlier with
          | nil =>
              obtain ⟨rfl, -⟩ := List.cons.inj heq
              exact absurd hname (by simpa using hfirst)
          | cons other earlier =>
              obtain ⟨rfl, rfl⟩ := List.cons.inj heq
              rw [firstRepeated, if_neg hfirst] at hnone
              refine ⟨earlier, later, rfl, hnone, ?_⟩
              simpa [or_assoc, or_left_comm] using hname

/-- The fault of a node that has two members of one name. -/
def Node.memberClash (node : Node) : Option BuildFault :=
  (firstRepeated [] ((Keyed.values node.members).map Member.name)).map
    (.duplicateMember node.path)

theorem Node.memberClash_eq_none_iff {node : Node} :
    node.memberClash = none ↔ ((Keyed.values node.members).map Member.name).Nodup := by
  rw [memberClash, Option.map_eq_none_iff, firstRepeated_eq_none_iff]
  simp

/-- The first fault of this kind in a forest, in pre-order. -/
def Forest.memberClash (forest : Forest) : Option BuildFault :=
  forest.nodes.findSome? Node.memberClash

theorem Forest.memberClash_eq_none_iff {forest : Forest} :
    forest.memberClash = none ↔
      ∀ node ∈ forest.nodes, ((Keyed.values node.members).map Member.name).Nodup := by
  rw [memberClash, List.findSome?_eq_none_iff]
  exact forall₂_congr fun node _ => Node.memberClash_eq_none_iff

/-! ## Members under their names -/

namespace Node

mutual

/-- The node with each member under its name, at every depth. -/
def rekeyed : Node → Node
  | ⟨name, documentation, attributes, members, children, path⟩ =>
      ⟨name, documentation, attributes,
        (Keyed.values members).map fun member => (member.name, member),
        rekeyedChildren children, path⟩

/-- Children with each member under its name. -/
def rekeyedChildren : List (String × Node) → List (String × Node)
  | [] => []
  | (key, child) :: rest => (key, child.rekeyed) :: rekeyedChildren rest

end

theorem rekeyedChildren_eq (children : List (String × Node)) :
    rekeyedChildren children = children.map fun entry => (entry.1, entry.2.rekeyed) := by
  induction children with
  | nil => rfl
  | cons entry rest ih => rw [rekeyedChildren, List.map_cons, ih]

theorem rekeyed_eq (node : Node) :
    node.rekeyed = ⟨node.name, node.documentation, node.attributes,
      (Keyed.values node.members).map fun member => (member.name, member),
      node.children.map fun entry => (entry.1, entry.2.rekeyed), node.path⟩ := by
  cases node
  rw [rekeyed, rekeyedChildren_eq]

theorem name_rekeyed (node : Node) : node.rekeyed.name = node.name := by
  rw [rekeyed_eq]

theorem StandsAt.rekeyed {path : Path} {node : Node} (hstands : node.StandsAt path) :
    node.rekeyed.StandsAt path := by
  induction node using Node.induction generalizing path with
  | step node ih =>
      obtain ⟨hpath, hchildren⟩ := standsAt_iff.mp hstands
      rw [rekeyed_eq]
      refine standsAt_iff.mpr ⟨hpath, fun entry hentry => ?_⟩
      obtain ⟨child, hchild, rfl⟩ := List.mem_map.mp hentry
      exact ih child hchild (hchildren child hchild)

theorem rekeyed_eq_self {node : Node}
    (hkeys : ∀ inner ∈ node.preorder, ∀ entry ∈ inner.members, entry.1 = entry.2.name) :
    node.rekeyed = node := by
  induction node using Node.induction with
  | step node ih =>
      have hmembers : (Keyed.values node.members).map (fun member => (member.name, member)) =
          node.members :=
        Keyed.map_values_label (hkeys node node.mem_preorder_self)
      have hchildren : node.children.map (fun entry => (entry.1, entry.2.rekeyed)) =
          node.children := by
        refine map_eq_self_iff.mpr fun entry hentry => Prod.ext rfl ?_
        exact ih entry hentry fun inner hinner => hkeys inner (mem_preorder_of_child hentry hinner)
      rw [rekeyed_eq, hmembers, hchildren]
      cases node
      rfl

end Node

namespace Forest

/-- The forest with each member under its name. -/
def rekeyed (forest : Forest) : Forest :=
  ⟨forest.roots.map Node.rekeyed⟩

theorem rekeyed_eq_self {forest : Forest}
    (hkeys : ∀ node ∈ forest.nodes, ∀ entry ∈ node.members, entry.1 = entry.2.name) :
    forest.rekeyed = forest := by
  refine congrArg mk (map_eq_self_iff.mpr fun root hroot => ?_)
  refine Node.rekeyed_eq_self fun inner hinner => hkeys inner ?_
  exact List.mem_flatMap.mpr ⟨root, hroot, hinner⟩

end Forest

/-! ## Building -/

namespace Staging

/-- Everything in the node has its entry at its path. -/
def Carries (staging : Staging) (node : Node) : Prop :=
  ∀ inner ∈ node.preorder, staging.entry? inner.path = some (Entry.ofNode inner)

theorem Carries.child {staging : Staging} {node : Node} {entry : String × Node}
    (hcarries : staging.Carries node) (hentry : entry ∈ node.children) :
    staging.Carries entry.2 :=
  fun _ hinner => hcarries _ (Node.mem_preorder_of_child hentry hinner)

theorem contains_of_registered {staging : Staging} {path : Path} {entry : Entry}
    (hentry : staging.entry? path = some entry) : staging.contains path = true := by
  unfold entry? at hentry
  rw [contains, Keyed.contains, hentry]
  rfl

theorem buildAt_of_registered {staging : Staging} {policy : MissingChild} {path : Path}
    {entry : Entry} (hentry : staging.entry? path = some entry) :
    staging.buildAt policy path = (do
      let members ← buildMembers path entry.members
      let children ← entry.children.mapM fun name => do
        let child ←
          if staging.contains (path.child name) then staging.buildAt policy (path.child name)
          else buildGap policy path name
        pure (name, child)
      pure ⟨entry.name, entry.documentation, entry.attributes, members,
        Keyed.ofList children, path⟩) := by
  rw [buildAt, hentry]
  rfl

/-- A build descends to registered paths only, and these are bounded in length. So what
holds at a path as soon as it holds at the registered paths one name longer holds at
every path. -/
@[elab_as_elim]
theorem induction_descent {staging : Staging} {motive : Path → Prop}
    (step : ∀ path : Path, (∀ name, staging.contains (path.child name) = true →
      motive (path.child name)) → motive path) (path : Path) : motive path := by
  induction hbound : staging.height + 1 - path.length using Nat.strongRecOn
    generalizing path with
  | _ bound ih =>
      refine step path fun name hregistered => ih _ ?_ _ rfl
      have hlength := length_le_height hregistered
      rw [Path.length_child] at hlength ⊢
      omega

/-- The members of a staged node are built under their names. -/
theorem buildMembers_values (node : Node) :
    buildMembers node.path (Keyed.values node.members) =
      unlessFault node.memberClash node.rekeyed.members := by
  rw [buildMembers, Node.memberClash, Node.rekeyed_eq]
  cases firstRepeated [] ((Keyed.values node.members).map Member.name) <;> rfl

/-- A carried node is built with its members under their names, unless two members of
a node in it have one name. Gaps play no part. -/
theorem buildAt_rekeyed {staging : Staging} {path : Path} {node : Node} (policy : MissingChild)
    (hstands : node.StandsAt path)
    (hdistinct : ∀ inner ∈ node.preorder, Keyed.Distinct inner.children)
    (hcarries : staging.Carries node) :
    staging.buildAt policy path =
      unlessFault (node.preorder.findSome? Node.memberClash) node.rekeyed := by
  induction node using Node.induction generalizing path with
  | step node ih =>
      obtain ⟨hpath, hchildren⟩ := Node.standsAt_iff.mp hstands
      have hentry : staging.entry? path = some (Entry.ofNode node) :=
        hpath ▸ hcarries node node.mem_preorder_self
      -- Each child is registered, so the recursion never comes to a gap.
      have hchild : ∀ entry ∈ node.children,
          (do
            let child ←
              if staging.contains (path.child entry.1) then
                staging.buildAt policy (path.child entry.1)
              else buildGap policy path entry.1
            pure (entry.1, child)) =
          unlessFault (entry.2.preorder.findSome? Node.memberClash)
            (entry.1, entry.2.rekeyed) := by
        intro entry hmem
        have hstands := hchildren entry hmem
        have hcarried := hcarries.child hmem
        have hbelow : ∀ inner ∈ entry.2.preorder, Keyed.Distinct inner.children :=
          fun inner hinner => hdistinct inner (Node.mem_preorder_of_child hmem hinner)
        have hregistered := hcarried entry.2 entry.2.mem_preorder_self
        rw [(Node.standsAt_iff.mp hstands).1] at hregistered
        rw [if_pos (contains_of_registered hregistered), ih entry hmem hstands hbelow hcarried]
        cases entry.2.preorder.findSome? Node.memberClash <;> rfl
      have hbelow : ((Keyed.values node.children).flatMap Node.preorder).findSome?
          Node.memberClash =
          node.children.findSome? fun entry => entry.2.preorder.findSome? Node.memberClash := by
        rw [Keyed.values, List.flatMap_map, findSome?_flatMap]
      have hkeys : Keyed.Distinct (node.children.map fun entry => (entry.1, entry.2.rekeyed)) :=
        Keyed.distinct_map_value _ (hdistinct node node.mem_preorder_self)
      have hmembers := buildMembers_values node
      rw [hpath] at hmembers
      rw [buildAt_of_registered hentry]
      simp only [Entry.ofNode, Node.childNames, Keyed.keys]
      rw [mapM_unlessFault hchild, hmembers, Node.preorder_eq, List.findSome?_cons, hbelow]
      cases node.memberClash with
      | some fault => rfl
      | none =>
          cases node.children.findSome? fun entry =>
              entry.2.preorder.findSome? Node.memberClash with
          | some fault => rfl
          | none =>
              rw [node.rekeyed_eq, ← hpath]
              simp only [unlessFault, Option.elim_none, bind, Except.bind, pure, Except.pure,
                Keyed.ofList_of_distinct hkeys]

/-- What is declared and carried is built with all members under their names. -/
theorem build_rekeyed {staging : Staging} {forest : Forest} (policy : MissingChild)
    (hroots : staging.roots = forest.roots.map Node.name)
    (hstands : ∀ root ∈ forest.roots, root.StandsAt (.single root.name))
    (hdistinct : ∀ node ∈ forest.nodes, Keyed.Distinct node.children)
    (hcarries : ∀ root ∈ forest.roots, staging.Carries root) :
    staging.build policy = unlessFault forest.memberClash forest.rekeyed := by
  have hroot : ∀ root ∈ forest.roots, staging.buildRoot policy root.name =
      unlessFault (root.preorder.findSome? Node.memberClash) root.rekeyed := by
    intro root hmem
    have hentry := hcarries root hmem root root.mem_preorder_self
    rw [(Node.standsAt_iff.mp (hstands root hmem)).1] at hentry
    unfold buildRoot
    rw [if_pos (contains_of_registered hentry)]
    refine buildAt_rekeyed policy (hstands root hmem) (fun inner hinner => ?_) (hcarries root hmem)
    exact hdistinct inner (List.mem_flatMap.mpr ⟨root, hmem, hinner⟩)
  have hrekeyed : Forest.ofRoots (forest.roots.map Node.rekeyed) = forest.rekeyed := by
    refine congrArg Forest.mk (map_eq_self_iff.mpr fun root hmem => ?_)
    obtain ⟨source, hsource, rfl⟩ := List.mem_map.mp hmem
    rw [Node.asRoot, source.name_rekeyed]
    exact (hstands source hsource).rekeyed
  rw [build, hroots, mapM_unlessFault hroot, Forest.memberClash, Forest.nodes,
    findSome?_flatMap, ← hrekeyed]
  cases forest.roots.findSome? fun root => root.preorder.findSome? Node.memberClash <;> rfl

/-- Where keys are names, a carried forest is built as it is. -/
theorem build_of_carries {staging : Staging} {forest : Forest} (policy : MissingChild)
    (hroots : staging.roots = forest.roots.map Node.name)
    (hplaced : ∀ root ∈ forest.roots, root.PlacedAt (.single root.name))
    (hcarries : ∀ root ∈ forest.roots, staging.Carries root) :
    staging.build policy = unlessFault forest.memberClash forest := by
  have hinner : ∀ node ∈ forest.nodes, Keyed.Distinct node.children ∧
      ∀ entry ∈ node.members, entry.1 = entry.2.name := by
    intro node hnode
    obtain ⟨root, hroot, hnode⟩ := List.mem_flatMap.mp hnode
    obtain ⟨place, _, hmember, -, hdistinct, -⟩ := (hplaced root hroot).of_mem hnode
    exact ⟨hdistinct, hmember⟩
  have hbuilt := build_rekeyed policy hroots (fun root hroot => (hplaced root hroot).standsAt)
    (fun node hnode => (hinner node hnode).1) hcarries
  rwa [Forest.rekeyed_eq_self fun node hnode => (hinner node hnode).2] at hbuilt

end Staging

end TreePass
