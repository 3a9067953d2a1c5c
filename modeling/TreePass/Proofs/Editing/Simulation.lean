import TreePass.Proofs.Editing.Mirror

/-!
# Editing a staging area is editing trees

Each edit of a staging area has its counterpart among plain trees. A staging area
that starts empty or from a forest whose children are kept under their own names
mirrors the trees that the counterparts of its edits lead to, after any number of
edits: it registers exactly the paths of these trees, and building it makes their
forest.
-/

namespace TreePass

/-- An edit of a staging area. -/
inductive Edit where
  | addRoot (name : String)
  | addChild (parent : Path) (name : String)
  | removeChild (parent : Path) (name : String)
  | removeNode (path : Path)
  | renameNode (path : Path) (name : String)
  | stageNode (path : Path) (node : Node)
  /-- Any change of the documentation, the attributes and the members. -/
  | editContent (path : Path) (f : Content → Content)

namespace Edit

open Rewriter (placeUnder)
open Staging (placeOf)

/-- What an edit makes of a staging area. -/
def onStaging (staging : Staging) : Edit → Staging
  | .addRoot name => staging.addRoot name
  | .addChild parent name => (staging.addChild parent name).2
  | .removeChild parent name => (staging.removeChild parent name).2
  | .removeNode path => (staging.removeNode path).2
  | .renameNode path name => (staging.renameNode path name).2
  | .stageNode path node => staging.stageNode path node
  | .editContent path f => (staging.edit path f).2

/-- The way to the siblings of the tree at a path. -/
def siblingsOf (path : Path) : List String := path.segments.dropLast

/-- What an edit makes of plain trees. Where there is nothing to edit nothing
happens. -/
def onTrees (trees : List Tree) : Edit → List Tree
  | .addRoot name => Tree.plant (.bare name) trees
  | .addChild parent name => Tree.alter (Tree.plant (.bare name)) parent.segments trees
  | .removeChild parent name => Tree.alter (Tree.fell name) parent.segments trees
  | .removeNode path => Tree.alter (Tree.fell path.leaf) (siblingsOf path) trees
  | .renameNode path name => Tree.alter (Tree.rename path.leaf name) (siblingsOf path) trees
  | .stageNode path node =>
      Tree.alter (Tree.updateNamed path.leaf fun _ => Tree.ofNode node) (siblingsOf path) trees
  | .editContent path f =>
      Tree.alter (Tree.updateNamed path.leaf (Tree.setContent f)) (siblingsOf path) trees

/-- A node is staged only in place of another one of its name, and its children
are kept under their own names. -/
def Admissible (staging : Staging) : Edit → Prop
  | .stageNode path node =>
      staging.contains path = true ∧ node.name = path.leaf ∧ node.Distinct ∧ node.KeyedByName
  | _ => True

theorem siblingsOf_placeUnder (parent : Option Path) (name : String) :
    siblingsOf (placeUnder parent name) = placeOf parent := by
  have hsegments := Staging.segments_placeUnder parent name []
  rw [Path.extend_nil] at hsegments
  rw [siblingsOf, hsegments, List.dropLast_concat]

end Edit

namespace Staging

open Rewriter (placeUnder)

variable {staging : Staging} {trees : List Tree}

theorem declareChild_eq (staging : Staging) (parent : Path) (name : String) :
    (staging.declareChild parent name).2 = staging.relist (some parent) (declare name) := by
  rw [declareChild, relist]
  cases hentry : staging.entry? parent with
  | none => exact (updateEntry_eq_self (by simp [hentry])).symm
  | some entry =>
      refine updateEntry_congr fun found hfound => ?_
      obtain rfl : entry = found := Option.some.inj (hentry.symm.trans hfound)
      rw [Entry.listChild, Entry.hasChild, declare]
      split <;> rfl

theorem addChild_eq {parent : Path} (hparent : staging.contains parent = true) (name : String) :
    (staging.addChild parent name).2 =
      (staging.relist (some parent) (declare name)).ensureEntry (placeUnder (some parent) name)
        name := by
  rw [addChild, if_pos hparent, declareChild_eq]
  rfl

theorem removeNode_eq (staging : Staging) (parent : Option Path) (name : String) :
    (staging.removeNode (placeUnder parent name)).2 =
      ((staging.relist parent (·.filter fun other => other != name)).prune
        (placeUnder parent name)).2 := by
  cases parent with
  | none => rfl
  | some above =>
      rw [removeNode, placeUnder, Path.parent_child]
      simp only [Path.leaf_child]
      rfl

theorem renameDeclared_eq (staging : Staging) (parent : Option Path) (old new : String) :
    staging.renameDeclared (placeUnder parent old) new =
      staging.relist parent (renamedNames old new) := by
  cases parent with
  | none => rfl
  | some above =>
      rw [renameDeclared, placeUnder, Path.parent_child]
      simp only [Path.leaf_child]
      rfl

theorem renameNode_of_unregistered {path : Path} (hcontains : ¬ staging.contains path = true)
    (name : String) : staging.renameNode path name = (none, staging) := by
  rw [renameNode, Bool.eq_false_iff.mpr hcontains, Bool.not_false, if_pos rfl]

theorem renameNode_self {parent : Option Path} {name : String}
    (hcontains : staging.contains (placeUnder parent name) = true) :
    staging.renameNode (placeUnder parent name) name =
      (some (placeUnder parent name), staging) := by
  rw [renameNode, hcontains, Bool.not_true, if_neg Bool.false_ne_true, withLeaf_placeUnder,
    if_pos rfl]

theorem renameNode_eq {parent : Option Path} {old new : String} (hne : old ≠ new)
    (hcontains : staging.contains (placeUnder parent old) = true) :
    staging.renameNode (placeUnder parent old) new =
      (some (placeUnder parent new), staging.renamedUnder parent old new) := by
  have htarget : placeUnder parent new ≠ placeUnder parent old := by
    intro heq
    rw [← Path.extend_nil (placeUnder parent old), placeUnder_eq_extend_iff] at heq
    exact hne heq.1
  rw [renameNode, hcontains, Bool.not_true, if_neg Bool.false_ne_true, withLeaf_placeUnder,
    if_neg htarget, renamedUnder, ← renameDeclared_eq]

namespace Mirrors

theorem siblings?_of_contains_parent (hmirrors : staging.Mirrors trees) (parent : Path) :
    staging.contains parent = (Tree.siblings? trees parent.segments).isSome := by
  rw [contains_eq_isSome, hmirrors.entry_eq, Path.segments, Tree.siblings?_cons, Tree.entryAt,
    Option.isSome_map, Option.isSome_map]

/-- A name without an entry is not among the siblings. -/
theorem not_mem_of_not_contains (hmirrors : staging.Mirrors trees) {parent : Option Path}
    {name : String} (hfree : ¬ staging.contains (placeUnder parent name) = true)
    {siblings : List Tree} (hsiblings : Tree.siblings? trees (placeOf parent) = some siblings) :
    name ∉ siblings.map Tree.name := by
  have hbelow := hmirrors.below parent name []
  rw [Path.extend_nil, hsiblings, Option.bind_some, Tree.entryAt_cons] at hbelow
  rw [contains_eq_isSome, hbelow] at hfree
  refine Tree.named?_eq_none_iff.mp ?_
  cases hnamed : Tree.named? name siblings with
  | none => rfl
  | some tree => simp [hnamed, Tree.descend] at hfree

theorem renameNode (hmirrors : staging.Mirrors trees) (parent : Option Path) (old new : String) :
    Mirrors (staging.renameNode (placeUnder parent old) new).2
      (Tree.alter (Tree.rename old new) (placeOf parent) trees) := by
  by_cases hcontains : staging.contains (placeUnder parent old) = true
  · by_cases hne : old = new
    · subst hne
      rw [renameNode_self hcontains]
      exact hmirrors.unchanged parent (fun _ hregular => hregular.rename old old)
        fun siblings _ => if_pos (.inl rfl)
    · rw [renameNode_eq hne hcontains]
      exact hmirrors.rename hne hcontains
  · rw [renameNode_of_unregistered hcontains]
    refine hmirrors.unchanged parent (fun _ hregular => hregular.rename old new) ?_
    intro siblings hsiblings
    exact if_pos (.inr (hmirrors.not_mem_of_not_contains hcontains hsiblings))

theorem addChild (hmirrors : staging.Mirrors trees) (parent : Path) (name : String) :
    Mirrors (staging.addChild parent name).2
      (Tree.alter (Tree.plant (.bare name)) parent.segments trees) := by
  have hsome := hmirrors.siblings?_of_contains_parent parent
  by_cases hcontains : staging.contains parent = true
  · rw [addChild_eq hcontains]
    refine hmirrors.plant (some parent) name ?_
    rw [hcontains] at hsome
    exact Option.isSome_iff_ne_none.mp hsome.symm
  · rw [Staging.addChild, if_neg hcontains]
    rw [Bool.eq_false_iff.mpr hcontains, eq_comm, Option.isSome_eq_false_iff,
      Option.isNone_iff_eq_none] at hsome
    refine hmirrors.unchanged (some parent)
      (fun _ hregular => hregular.plant (Tree.Regular.bare name)) ?_
    intro siblings hsiblings
    rw [placeOf, hsome] at hsiblings
    cases hsiblings

/-- What one edit preserves. -/
theorem edit (hmirrors : staging.Mirrors trees) (edit : Edit) (hedit : edit.Admissible staging) :
    Mirrors (edit.onStaging staging) (edit.onTrees trees) := by
  cases edit with
  | addRoot name => exact hmirrors.plant none name (Option.some_ne_none _)
  | addChild parent name => exact hmirrors.addChild parent name
  | removeChild parent name => exact hmirrors.fell (some parent) name
  | removeNode path =>
      obtain ⟨parent, hpath⟩ := exists_placeUnder path
      have hfell := hmirrors.fell parent path.leaf
      rw [← removeNode_eq, ← hpath] at hfell
      rwa [Edit.onStaging, Edit.onTrees, hpath, Edit.siblingsOf_placeUnder, leaf_placeUnder,
        ← hpath]
  | renameNode path name =>
      obtain ⟨parent, hpath⟩ := exists_placeUnder path
      have hrename := hmirrors.renameNode parent path.leaf name
      rw [← hpath] at hrename
      rwa [Edit.onStaging, Edit.onTrees, hpath, Edit.siblingsOf_placeUnder, leaf_placeUnder,
        ← hpath]
  | stageNode path node =>
      obtain ⟨parent, hpath⟩ := exists_placeUnder path
      obtain ⟨hcontains, hname, hdistinct, hkeyed⟩ := hedit
      rw [← hname] at hpath
      subst hpath
      rw [Edit.onStaging, Edit.onTrees, Edit.siblingsOf_placeUnder, leaf_placeUnder]
      exact hmirrors.stageNode hdistinct hkeyed hcontains
  | editContent path f =>
      obtain ⟨parent, hpath⟩ := exists_placeUnder path
      rw [hpath, Edit.onStaging, Edit.onTrees, Edit.siblingsOf_placeUnder, leaf_placeUnder]
      exact hmirrors.setContent parent path.leaf f

theorem empty : Mirrors .empty [] where
  regular := Tree.Regular.nil
  roots_eq := rfl
  entry_eq := fun _ => rfl
  distinct := List.nodup_nil

/-- Staging roots of new names one after the other plants their trees. -/
theorem stageRoots (hmirrors : staging.Mirrors trees) {roots : List Node}
    (hnodup : (trees.map Tree.name ++ roots.map Node.name).Nodup)
    (hroots : ∀ root ∈ roots, root.Distinct ∧ root.KeyedByName) :
    Mirrors (roots.foldl Staging.stageRoot staging) (trees ++ roots.map Tree.ofNode) := by
  induction roots generalizing staging trees with
  | nil => rwa [List.map_nil, List.append_nil]
  | cons root rest ih =>
      obtain ⟨⟨hdistinct, hkeyed⟩, hrest⟩ := List.forall_mem_cons.mp hroots
      have hnew : root.name ∉ trees.map Tree.name := fun hmem =>
        List.disjoint_of_nodup_append hnodup hmem List.mem_cons_self
      have hplanted : Tree.plant (Tree.ofNode root) trees = trees ++ [Tree.ofNode root] := by
        rw [Tree.plant, if_neg (by rwa [Tree.ofNode_name])]
      have hstaged := hmirrors.stageRoot hdistinct hkeyed hnew
      rw [hplanted] at hstaged
      rw [List.foldl_cons, List.map_cons, List.append_cons]
      exact ih hstaged (by simpa using hnodup) hrest

theorem ofForest {forest : Forest} (hnodup : (forest.roots.map Node.name).Nodup)
    (hdistinct : forest.Distinct) (hkeyed : ∀ root ∈ forest.roots, root.KeyedByName) :
    Mirrors (.ofForest forest) (forest.roots.map Tree.ofNode) :=
  empty.stageRoots (by simpa using hnodup)
    fun root hroot => ⟨hdistinct root hroot, hkeyed root hroot⟩

end Mirrors

end Staging

/-- A staging area and plain trees after some edits of each. Both start with
nothing in them or with a forest that has no two roots of one name, no map with a
key twice and every child under its own name. -/
inductive Edited : Staging → List Tree → Prop where
  | empty : Edited .empty []
  | ofForest {forest : Forest} (nodup : (forest.roots.map Node.name).Nodup)
      (distinct : forest.Distinct) (keyed : ∀ root ∈ forest.roots, root.KeyedByName) :
      Edited (.ofForest forest) (forest.roots.map Tree.ofNode)
  | edit {staging : Staging} {trees : List Tree} (before : Edited staging trees) (edit : Edit)
      (admissible : edit.Admissible staging) :
      Edited (edit.onStaging staging) (edit.onTrees trees)

namespace Edited

/-- The run: each edit keeps the mirror, and so do any number of them. -/
theorem mirrors {staging : Staging} {trees : List Tree} (hedited : Edited staging trees) :
    staging.Mirrors trees := by
  induction hedited with
  | empty => exact .empty
  | ofForest hnodup hdistinct hkeyed => exact .ofForest hnodup hdistinct hkeyed
  | edit _ edit hadmissible ih => exact ih.edit edit hadmissible

/-- After any edits the registered paths are those of the trees, and building makes
their forest, whichever way gaps are treated, unless a node in it has two members
of one name. -/
theorem registered_and_built {staging : Staging} {trees : List Tree}
    (hedited : Edited staging trees) :
    (∀ path, staging.contains path = true ↔ path ∈ (Tree.toForest trees).nodes.map Node.path) ∧
      ∀ policy, staging.build policy =
        unlessFault (Tree.toForest trees).memberClash (Tree.toForest trees) :=
  ⟨hedited.mirrors.contains_iff, hedited.mirrors.build_eq⟩

/-- A root with two children, each of which has one. -/
def orchard : Forest :=
  .ofRoots [((Node.named "m").withChild ((Node.named "x").withChild (.named "leaf"))).withChild
    ((Node.named "y").withChild (.named "old"))]

/-- The first child takes the name of the second one, with what is below it; after
that a child of the first name is back, at the end. -/
def orchardEdits : List Edit :=
  [.renameNode ⟨"m", ["x"]⟩ "y", .addChild (.single "m") "x"]

theorem registered_and_built_orchard :
    Edited (orchardEdits.foldl Edit.onStaging (.ofForest orchard))
        (orchardEdits.foldl Edit.onTrees (orchard.roots.map Tree.ofNode)) ∧
      ∀ policy, (orchardEdits.foldl Edit.onStaging (.ofForest orchard)).build policy =
        .ok (.ofRoots [((Node.named "m").withChild ((Node.named "y").withChild
          (.named "leaf"))).withChild (.named "x")]) := by
  have hdistinct : orchard.Distinct := by decide
  have hkeyed : ∀ root ∈ orchard.roots, root.KeyedByName := by decide
  have hstart : Edited (.ofForest orchard) (orchard.roots.map Tree.ofNode) :=
    .ofForest (by decide) hdistinct hkeyed
  have hedited := (hstart.edit (.renameNode ⟨"m", ["x"]⟩ "y") trivial).edit
    (.addChild (.single "m") "x") trivial
  exact ⟨hedited, (registered_and_built hedited).2⟩

end Edited

end TreePass
