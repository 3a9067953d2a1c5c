import TreePass.Proofs.Editing.Grove
import TreePass.Proofs.Node.Standing
import TreePass.Proofs.Staging.Siblings

/-!
# Staging areas that mirror trees

A staging area mirrors plain trees when its roots are theirs, in order, and each
path has exactly the entry of the tree that the names of the path lead to. Every
edit of a staging area changes one list of names, which is that of the roots or
that of the children of one entry, and what is registered at and below one of
these names. If that is what an edit of siblings does to the trees, then the
staging area goes on mirroring them. Building a staging area that mirrors trees
makes their forest.
-/

namespace TreePass.Staging

open Rewriter (placeUnder)

/-! ## Mirroring -/

/-- The roots and the entries are those of the trees. -/
structure Mirrors (staging : Staging) (trees : List Tree) : Prop where
  regular : Tree.Regular trees
  roots_eq : staging.roots = trees.map Tree.name
  entry_eq : ∀ path, staging.entry? path = Tree.entryAt trees path.segments
  distinct : Keyed.Distinct staging.entries

namespace Mirrors

variable {staging after : Staging} {trees : List Tree}

theorem below (hmirrors : staging.Mirrors trees) (parent : Option Path) (name : String)
    (names : List String) :
    staging.entry? ((placeUnder parent name).extend names) =
      (Tree.siblings? trees (placeOf parent)).bind fun siblings =>
        Tree.entryAt siblings (name :: names) := by
  rw [hmirrors.entry_eq, segments_placeUnder, Tree.entryAt_append_cons]

/-- The entry of a parent changes as the tree of the parent does. -/
theorem parent (hmirrors : staging.Mirrors trees) {above : Path}
    {g : List String → List String} {f : List Tree → List Tree}
    (hnames : ∀ siblings, Tree.siblings? trees above.segments = some siblings →
      (f siblings).map Tree.name = g (siblings.map Tree.name)) :
    entry? (staging.relist (some above) g) above =
      Tree.entryAt (Tree.alter f above.segments trees) above.segments := by
  have hat := Tree.entryAt_alter_at (f := f) trees above.root above.rest
  have hsiblings := Tree.siblings?_cons trees above.root above.rest
  rw [entry?_relist, if_pos rfl, hmirrors.entry_eq]
  change (Tree.entryAt trees (above.root :: above.rest)).map _ = _
  refine Eq.trans ?_ hat.symm
  rw [Tree.entryAt]
  cases hfound : Tree.find? trees (above.root :: above.rest) with
  | none => rfl
  | some tree =>
      rw [hfound] at hsiblings
      rw [Option.map_some, Option.map_some, Option.map_some, hnames tree.children hsiblings]
      rfl

/-- An edit keeps the mirror if it changes a list of names as an edit of siblings
changes their names, and leaves below each name what that edit leaves there. -/
theorem alter (hmirrors : staging.Mirrors trees) (parent : Option Path)
    {g : List String → List String} {f : List Tree → List Tree}
    (hregular : ∀ siblings, Tree.Regular siblings → Tree.Regular (f siblings))
    (hnames : ∀ siblings, Tree.siblings? trees (placeOf parent) = some siblings →
      (f siblings).map Tree.name = g (siblings.map Tree.name))
    (hroots : after.roots = (staging.relist parent g).roots)
    (hoff : ∀ path, (∀ name, ¬ path.startsWith (placeUnder parent name) = true) →
      after.entry? path = entry? (staging.relist parent g) path)
    (hbelow : ∀ name names, after.entry? ((placeUnder parent name).extend names) =
      (Tree.siblings? trees (placeOf parent)).bind fun siblings =>
        Tree.entryAt (f siblings) (name :: names))
    (hdistinct : Keyed.Distinct after.entries) :
    after.Mirrors (Tree.alter f (placeOf parent) trees) where
  regular := hmirrors.regular.alter hregular _
  roots_eq := by
    rw [hroots, Tree.map_name_alter]
    cases parent with
    | none => exact (congrArg g hmirrors.roots_eq).trans (hnames trees rfl).symm
    | some above => exact hmirrors.roots_eq
  entry_eq := by
    intro path
    by_cases hstarts : placeOf parent <+: path.segments
    · obtain ⟨rest, hrest⟩ := hstarts
      cases rest with
      | nil =>
          cases parent with
          | none => exact absurd hrest (List.cons_ne_nil _ _).symm
          | some above =>
              obtain rfl : above = path := Path.eq_of_segments (by simpa [placeOf] using hrest)
              rw [hoff above fun name => above.not_startsWith_child name]
              exact hmirrors.parent hnames
      | cons name names =>
          have hpath : path = (placeUnder parent name).extend names :=
            Path.eq_of_segments (by rw [segments_placeUnder, hrest])
          rw [hpath, hbelow, segments_placeUnder, Tree.entryAt_alter_below]
    · have hpath : parent ≠ some path := by
        rintro rfl
        exact hstarts List.prefix_rfl
      have hunder : ∀ name, ¬ path.startsWith (placeUnder parent name) = true := by
        intro name hname
        obtain ⟨names, rfl⟩ := Path.startsWith_iff_extend.mp hname
        exact hstarts ⟨name :: names, (segments_placeUnder parent name names).symm⟩
      rw [Tree.entryAt_alter_off _ hstarts, ← hmirrors.entry_eq, hoff path hunder,
        entry?_relist, if_neg hpath]
  distinct := hdistinct

theorem siblings_of_contains (hmirrors : staging.Mirrors trees) {parent : Option Path}
    {name : String} (hcontains : staging.contains (placeUnder parent name) = true) :
    ∃ siblings, Tree.siblings? trees (placeOf parent) = some siblings ∧
      name ∈ siblings.map Tree.name := by
  have hbelow := hmirrors.below parent name []
  rw [Path.extend_nil] at hbelow
  rw [contains_eq_isSome, hbelow] at hcontains
  cases hsiblings : Tree.siblings? trees (placeOf parent) with
  | none => simp [hsiblings] at hcontains
  | some siblings =>
      refine ⟨siblings, rfl, ?_⟩
      by_contra hnew
      rw [hsiblings, Option.bind_some, Tree.entryAt_cons, Tree.named?_eq_none_iff.mpr hnew]
        at hcontains
      cases hcontains

/-! ## Edits -/

/-- Planting a tree declares its name and makes sure that an entry is there. -/
theorem plant (hmirrors : staging.Mirrors trees) (parent : Option Path) (name : String)
    (hparent : Tree.siblings? trees (placeOf parent) ≠ none) :
    Mirrors ((staging.relist parent (declare name)).ensureEntry (placeUnder parent name) name)
      (Tree.alter (Tree.plant (.bare name)) (placeOf parent) trees) := by
  refine hmirrors.alter parent (g := declare name)
    (fun _ hsiblings => hsiblings.plant (Tree.Regular.bare name))
    (fun siblings _ => Tree.map_name_plant (.bare name) siblings) ?_ ?_ ?_ ?_
  · rw [ensureEntry]
    split <;> rfl
  · intro path hpath
    have hne : placeUnder parent name ≠ path :=
      fun heq => hpath name (heq ▸ path.startsWith_refl)
    rw [entry?_ensureEntry, if_neg hne, Option.or_none]
  · intro other names
    obtain ⟨siblings, hsiblings⟩ := Option.ne_none_iff_exists'.mp hparent
    rw [entry?_ensureEntry, entry?_relist_below, hmirrors.below, hsiblings, Option.bind_some,
      Option.bind_some, Tree.entryAt_plant_bare]
    congr 1
    exact if_congr placeUnder_eq_extend_iff rfl rfl
  · exact distinct_ensureEntry (distinct_relist hmirrors.distinct _ _) _ _

/-- Staging a root of a new name plants the tree of the root. -/
theorem stageRoot (hmirrors : staging.Mirrors trees) {root : Node} (hdistinct : root.Distinct)
    (hkeyed : root.KeyedByName) (hnew : root.name ∉ trees.map Tree.name) :
    Mirrors (staging.stageRoot root) (Tree.plant (Tree.ofNode root) trees) := by
  have hname := Tree.ofNode_name root
  refine hmirrors.alter none (g := declare root.name)
    (fun _ hsiblings => hsiblings.plant (Tree.regular_ofNode hkeyed hdistinct))
    (fun siblings _ => hname ▸ Tree.map_name_plant (Tree.ofNode root) siblings) rfl ?_ ?_ ?_
  · intro path hpath
    exact get?_registerNode_off root _ (hpath root.name) _
  · intro other names
    rw [← hname] at hnew
    change _ = Tree.entryAt (Tree.plant (Tree.ofNode root) trees) (other :: names)
    rw [Tree.entryAt_plant_of_not_mem _ _ _ hnew, hname]
    by_cases hother : root.name = other
    · subst hother
      have hfree : staging.entry? ((Path.single root.name).extend names) = none := by
        rw [hname] at hnew
        rw [hmirrors.entry_eq]
        change Tree.entryAt trees (root.name :: names) = none
        rw [Tree.entryAt_cons, Tree.named?_eq_none_iff.mpr hnew]
        rfl
      have hregistered := get?_registerNode hdistinct (.single root.name) names staging.entries
      rw [← entry?, hfree, Option.or_none, ← Tree.descend_ofNode hkeyed] at hregistered
      rw [if_pos rfl]
      exact hregistered
    · have hoff := not_startsWith_placeUnder (Ne.symm hother) none names
      rw [if_neg hother]
      refine (get?_registerNode_off root _ hoff staging.entries).trans ?_
      exact hmirrors.entry_eq _
  · exact distinct_registerNode _ _ hmirrors.distinct

/-- Felling a tree strikes its name and prunes what is below it. -/
theorem fell (hmirrors : staging.Mirrors trees) (parent : Option Path) (name : String) :
    Mirrors ((staging.relist parent (·.filter fun other => other != name)).prune
      (placeUnder parent name)).2 (Tree.alter (Tree.fell name) (placeOf parent) trees) := by
  refine hmirrors.alter parent (g := (·.filter fun other => other != name))
    (fun _ hsiblings => hsiblings.fell name) (fun siblings _ => Tree.map_name_fell name siblings)
    rfl ?_ ?_ ?_
  · intro path hpath
    rw [entry?_prune, if_neg (hpath name)]
  · intro other names
    rw [entry?_prune, entry?_relist_below, hmirrors.below]
    simp only [placeUnder_startsWith_iff, Tree.entryAt_fell]
    cases Tree.siblings? trees (placeOf parent) with
    | none => exact ite_self _
    | some siblings => rfl
  · exact distinct_prune (distinct_relist hmirrors.distinct _ _) _

/-- Editing the contents of an entry edits those of its tree. -/
theorem setContent (hmirrors : staging.Mirrors trees) (parent : Option Path) (name : String)
    (f : Content → Content) :
    Mirrors (staging.updateEntry (placeUnder parent name)
        fun entry => entry.withContent (f entry.toContent))
      (Tree.alter (Tree.updateNamed name (Tree.setContent f)) (placeOf parent) trees) := by
  refine hmirrors.alter parent (g := id)
    (fun _ hsiblings => hsiblings.updateNamed (f := Tree.setContent f) (fun _ hname => hname)
      fun _ hchildren => hchildren)
    (fun siblings _ =>
      Tree.map_name_updateNamed (f := Tree.setContent f) (fun _ hname => hname) siblings)
    ?_ ?_ ?_ ?_
  · rw [relist_id]
    rfl
  · intro path hpath
    have hne : placeUnder parent name ≠ path :=
      fun heq => hpath name (heq ▸ path.startsWith_refl)
    rw [relist_id, entry?_updateEntry, if_neg hne]
  · intro other names
    rw [entry?_updateEntry, hmirrors.below]
    simp only [placeUnder_eq_extend_iff, Tree.entryAt_setContent]
    cases Tree.siblings? trees (placeOf parent) with
    | none => exact ite_self _
    | some siblings => rfl
  · exact Keyed.distinct_update _ _ hmirrors.distinct

/-- Staging a node at the path of a tree of its name puts the tree of the node in
place of that tree. -/
theorem stageNode (hmirrors : staging.Mirrors trees) {parent : Option Path} {node : Node}
    (hdistinct : node.Distinct) (hkeyed : node.KeyedByName)
    (hcontains : staging.contains (placeUnder parent node.name) = true) :
    Mirrors (staging.stageNode (placeUnder parent node.name) node)
      (Tree.alter (Tree.updateNamed node.name fun _ => Tree.ofNode node) (placeOf parent)
        trees) := by
  have hname := Tree.ofNode_name node
  refine hmirrors.alter parent (g := id)
    (fun _ hsiblings => hsiblings.updateNamed (fun _ _ => hname)
      fun _ _ => Tree.regular_ofNode hkeyed hdistinct)
    (fun siblings _ => Tree.map_name_updateNamed (fun _ _ => hname) siblings) ?_ ?_ ?_ ?_
  · rw [relist_id]
    rfl
  · intro path hpath
    rw [relist_id, entry?_stageNode_off (hpath node.name)]
  · intro other names
    obtain ⟨siblings, hsiblings, hmem⟩ := hmirrors.siblings_of_contains hcontains
    rw [← hname] at hmem
    have hreplace := Tree.entryAt_replace (Tree.ofNode node) other names hmem
    rw [hname] at hreplace
    rw [hsiblings, Option.bind_some, hreplace]
    by_cases hother : other = node.name
    · rw [if_pos hother, hother, entry?_stageNode hdistinct, Tree.descend_ofNode hkeyed]
    · rw [if_neg hother, entry?_stageNode_off (not_startsWith_placeUnder hother _ _),
        hmirrors.below, hsiblings, Option.bind_some]
  · exact distinct_registerNode _ _ (distinct_prune hmirrors.distinct _)

/-- Renaming an entry renames its tree, in the place of a former bearer of the name. -/
theorem rename (hmirrors : staging.Mirrors trees) {parent : Option Path} {old new : String}
    (hne : old ≠ new) (hcontains : staging.contains (placeUnder parent old) = true) :
    Mirrors (staging.renamedUnder parent old new)
      (Tree.alter (Tree.rename old new) (placeOf parent) trees) := by
  obtain ⟨siblings, hsiblings, hold⟩ := hmirrors.siblings_of_contains hcontains
  have hnodup := (hmirrors.regular.siblings hsiblings).nodup
  refine hmirrors.alter parent (g := renamedNames old new)
    (fun _ hregular => hregular.rename old new) ?_ (roots_renamedUnder staging parent old new)
    ?_ ?_ ?_
  · intro others hothers
    rw [hsiblings] at hothers
    cases hothers
    rw [Tree.map_name_rename hne hold, renamedNames, renameFirst_of_nodup (hnodup.filter _)]
  · intro path hpath
    exact entry?_renamedUnder_off hmirrors.distinct hne (hpath old) (hpath new)
  · intro name names
    have hbelow (name : String) : staging.entry? ((placeUnder parent name).extend names) =
        Tree.entryAt siblings (name :: names) := by
      rw [hmirrors.below, hsiblings, Option.bind_some]
    rw [hsiblings, Option.bind_some, Tree.entryAt_rename hne hold,
      entry?_renamedUnder_below hmirrors.distinct hne, hbelow, hbelow]
  · exact distinct_renamedUnder staging parent old new

/-- An edit of siblings that leaves the siblings at a place alone, or that finds
none there, keeps the mirror by itself. -/
theorem unchanged (hmirrors : staging.Mirrors trees) (parent : Option Path)
    {f : List Tree → List Tree}
    (hregular : ∀ siblings, Tree.Regular siblings → Tree.Regular (f siblings))
    (hkept : ∀ siblings, Tree.siblings? trees (placeOf parent) = some siblings →
      f siblings = siblings) :
    staging.Mirrors (Tree.alter f (placeOf parent) trees) := by
  refine hmirrors.alter parent (g := id) hregular (fun siblings hsiblings => ?_) ?_ ?_ ?_
    hmirrors.distinct
  · rw [hkept siblings hsiblings, id]
  · rw [relist_id]
  · intro path _
    rw [relist_id]
  · intro name names
    rw [hmirrors.below]
    cases hsiblings : Tree.siblings? trees (placeOf parent) with
    | none => rfl
    | some siblings => rw [Option.bind_some, Option.bind_some, hkept siblings hsiblings]

/-! ## Building -/

theorem contains_iff (hmirrors : staging.Mirrors trees) (path : Path) :
    staging.contains path = true ↔ path ∈ (Tree.toForest trees).nodes.map Node.path := by
  rw [contains_eq_isSome, hmirrors.entry_eq, Tree.entryAt, Option.isSome_map,
    Option.isSome_iff_exists, List.mem_map]
  constructor
  · rintro ⟨tree, htree⟩
    have hnode := (Tree.mem_nodes_toForest hmirrors.regular).mpr ⟨path, tree, htree, rfl⟩
    exact ⟨_, hnode, tree.toNode_path path⟩
  · rintro ⟨node, hnode, rfl⟩
    obtain ⟨path, tree, htree, rfl⟩ := (Tree.mem_nodes_toForest hmirrors.regular).mp hnode
    rw [Tree.toNode_path]
    exact ⟨tree, htree⟩

theorem roots_placed (hmirrors : staging.Mirrors trees) :
    ∀ root ∈ (Tree.toForest trees).roots, root.PlacedAt (.single root.name) := by
  intro root hroot
  obtain ⟨tree, htree, rfl⟩ := List.mem_map.mp hroot
  rw [Tree.toNode_name]
  exact Tree.toNode_placed hmirrors.regular htree _

/-- The entries are those of the nodes of the forest, in some order. -/
theorem entries_perm (hmirrors : staging.Mirrors trees) :
    staging.entries.Perm
      ((Tree.toForest trees).nodes.map fun node => (node.path, Entry.ofNode node)) := by
  have hnames : ((Tree.toForest trees).roots.map Node.name).Nodup :=
    Tree.map_name_toForest trees ▸ hmirrors.regular.nodup
  have hpaths := Forest.nodup_paths hnames hmirrors.roots_placed
  have hnodes : ((Tree.toForest trees).nodes.map
      fun node => (node.path, Entry.ofNode node)).Nodup := by
    refine List.Nodup.of_map Prod.fst ?_
    rwa [List.map_map]
  refine (List.perm_ext_iff_of_nodup (List.Nodup.of_map Prod.fst hmirrors.distinct) hnodes).mpr ?_
  rintro ⟨path, entry⟩
  rw [List.mem_map]
  constructor
  · intro hentry
    have hfound := Keyed.get?_eq_some_of_mem hmirrors.distinct hentry
    rw [← entry?, hmirrors.entry_eq, Tree.entryAt, Option.map_eq_some_iff] at hfound
    obtain ⟨tree, htree, rfl⟩ := hfound
    refine ⟨tree.toNode path, ?_, by rw [Tree.toNode_path, Tree.ofNode_toNode]⟩
    exact (Tree.mem_nodes_toForest hmirrors.regular).mpr ⟨path, tree, htree, rfl⟩
  · rintro ⟨node, hnode, heq⟩
    obtain ⟨place, tree, htree, rfl⟩ := (Tree.mem_nodes_toForest hmirrors.regular).mp hnode
    rw [Tree.toNode_path, Tree.ofNode_toNode] at heq
    cases heq
    refine Keyed.mem_of_get? ?_
    rw [← entry?, hmirrors.entry_eq, Tree.entryAt, htree, Option.map_some]

/-- Building makes the forest of the trees, unless a node in it has two members of
one name: then it fails at the first of these. -/
theorem build_eq (hmirrors : staging.Mirrors trees) (policy : MissingChild) :
    staging.build policy =
      unlessFault (Tree.toForest trees).memberClash (Tree.toForest trees) := by
  refine build_of_carries policy ?_ hmirrors.roots_placed fun root hroot inner hinner => ?_
  · rw [hmirrors.roots_eq, Tree.map_name_toForest]
  · have hnode : inner ∈ (Tree.toForest trees).nodes := List.mem_flatMap.mpr ⟨root, hroot, hinner⟩
    obtain ⟨path, tree, htree, rfl⟩ := (Tree.mem_nodes_toForest hmirrors.regular).mp hnode
    rw [Tree.toNode_path, hmirrors.entry_eq, Tree.entryAt, htree, Option.map_some,
      Tree.ofNode_toNode]

end Mirrors

end TreePass.Staging
