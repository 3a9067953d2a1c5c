import TreePass.Proofs.Node.Standing
import TreePass.Proofs.Rewrite.Walk
import TreePass.Proofs.Staging.Lookup

/-!
# Grafting nodes onto a staging area

A visit stages a node when it comes to it and lists it with its parent; what is
below follows. When the visit is over, the node has been grafted: it is listed
at the end of its siblings, and the entries of everything in it follow in
pre-order. This is so wherever a place is open, that is, nothing is registered
at or below the names that are not taken there.
-/

namespace TreePass

/-- The entry with further children at the end of its list. -/
def Entry.listing (entry : Entry) (names : List String) : Entry :=
  { entry with children := entry.children ++ names }

namespace Staging

/-- The entries of everything in a list of nodes, in pre-order. -/
def entriesOf (nodes : List Node) : List (Path × Entry) :=
  (nodes.flatMap Node.preorder).map fun node => (node.path, Entry.ofNode node)

/-- Lists nodes below a parent, or as roots, and registers everything in them. -/
def graft (staging : Staging) (parent : Option Path) (nodes : List Node) : Staging :=
  match parent with
  | none =>
      { roots := staging.roots ++ nodes.map Node.name
        entries := staging.entries ++ entriesOf nodes }
  | some above =>
      { roots := staging.roots
        entries := Keyed.update above (·.listing (nodes.map Node.name)) staging.entries ++
          entriesOf nodes }

/-- Below the parent the given names are taken: nothing else is listed there, and
nothing is registered at or below any other name. -/
structure Open (staging : Staging) (parent : Option Path) (taken : List String) : Prop where
  parent_registered : ∀ above, parent = some above → above ∈ Keyed.keys staging.entries
  listed_taken : ∀ name ∈ staging.listedUnder parent, name ∈ taken
  taken_registered : ∀ name ∈ taken,
    Rewriter.placeUnder parent name ∈ Keyed.keys staging.entries
  vacant : ∀ name, name ∉ taken → ∀ path ∈ Keyed.keys staging.entries,
    ¬ path.startsWith (Rewriter.placeUnder parent name) = true

theorem placeUnder_name_eq {path : Path} {parent : Option Path} {name other : String}
    (hname : path.startsWith (Rewriter.placeUnder parent name) = true)
    (hother : path.startsWith (Rewriter.placeUnder parent other) = true) : name = other := by
  cases parent with
  | none => exact Path.single_name_eq hname hother
  | some above => exact Path.child_name_eq hname hother

theorem open_empty : empty.Open none [] where
  parent_registered := by simp
  listed_taken := by simp [listedUnder, empty]
  taken_registered := by simp
  vacant := by simp [empty]

theorem Open.notMem_keys {staging : Staging} {parent : Option Path} {taken : List String}
    (hopen : staging.Open parent taken) {name : String} (hnew : name ∉ taken) :
    Rewriter.placeUnder parent name ∉ Keyed.keys staging.entries :=
  fun hmem => hopen.vacant name hnew _ hmem (Path.startsWith_refl _)

theorem Open.contains_iff {staging : Staging} {parent : Option Path} {taken : List String}
    (hopen : staging.Open parent taken) (name : String) :
    staging.contains (Rewriter.placeUnder parent name) = true ↔ name ∈ taken := by
  rw [contains, Keyed.contains_iff_mem_keys]
  refine ⟨fun hmem => ?_, hopen.taken_registered name⟩
  by_contra hnew
  exact hopen.notMem_keys hnew hmem

/-! ## Entries of grafted nodes -/

theorem entriesOf_append (nodes others : List Node) :
    entriesOf (nodes ++ others) = entriesOf nodes ++ entriesOf others := by
  rw [entriesOf, List.flatMap_append, List.map_append]
  rfl

theorem entriesOf_assemble (kept : Node) (path : Path) (members : List Member)
    (children : List Node) :
    entriesOf [Walk.assemble kept path members children] =
      (path, Entry.listing ⟨⟨kept.documentation, kept.attributes, members⟩, kept.name, []⟩
        (children.map Node.name)) :: entriesOf children := by
  rw [entriesOf, List.flatMap_singleton, Node.preorder_eq, List.map_cons]
  simp only [Walk.assemble, Entry.ofNode, Node.childNames, Keyed.values_map_label,
    Keyed.keys_map_label, Entry.listing, List.nil_append]
  rfl

theorem keys_graft (staging : Staging) (parent : Option Path) (nodes : List Node) :
    Keyed.keys (staging.graft parent nodes).entries =
      Keyed.keys staging.entries ++ (nodes.flatMap Node.preorder).map Node.path := by
  have hkeys : Keyed.keys (entriesOf nodes) = (nodes.flatMap Node.preorder).map Node.path := by
    rw [Keyed.keys, entriesOf, List.map_map]
    rfl
  cases parent <;> simp [graft, hkeys]

theorem graft_nil (staging : Staging) (parent : Option Path) :
    staging.graft parent [] = staging := by
  cases parent with
  | none => simp [graft, entriesOf]
  | some above =>
      have hlisting : (fun entry : Entry => entry.listing []) = id := by
        funext entry
        simp [Entry.listing]
      simp [graft, entriesOf, hlisting, Keyed.update_id]

/-- Siblings may be grafted one after the other. -/
theorem graft_graft {staging : Staging} {parent : Option Path}
    (hparent : ∀ above, parent = some above → above ∈ Keyed.keys staging.entries)
    (nodes others : List Node) :
    (staging.graft parent nodes).graft parent others =
      staging.graft parent (nodes ++ others) := by
  cases parent with
  | none => simp [graft, entriesOf_append]
  | some above =>
      have hlisting : (fun entry : Entry => entry.listing (others.map Node.name)) ∘
          (fun entry : Entry => entry.listing (nodes.map Node.name)) =
          fun entry => entry.listing ((nodes ++ others).map Node.name) := by
        funext entry
        simp [Entry.listing]
      have hmem : above ∈ Keyed.keys (Keyed.update above
          (fun entry : Entry => entry.listing (nodes.map Node.name)) staging.entries) := by
        rw [Keyed.keys_update]
        exact hparent above rfl
      simp only [graft]
      rw [Keyed.update_append_of_mem _ _ hmem, Keyed.update_update, hlisting, entriesOf_append,
        List.append_assoc]

/-- Children may be grafted after their parent. -/
theorem graft_children {staging : Staging} {parent : Option Path} {path : Path}
    (hnew : path ∉ Keyed.keys staging.entries) (kept : Node) (members : List Member)
    (children : List Node) :
    (staging.graft parent [Walk.assemble kept path members []]).graft (some path) children =
      staging.graft parent [Walk.assemble kept path members children] := by
  have hbelow (entries : List (Path × Entry)) (hpath : path ∉ Keyed.keys entries) :
      Keyed.update path (·.listing (children.map Node.name))
          (entries ++ entriesOf [Walk.assemble kept path members []]) ++ entriesOf children =
        entries ++ entriesOf [Walk.assemble kept path members children] := by
    rw [Keyed.update_append_of_notMem _ _ hpath, entriesOf_assemble, entriesOf_assemble,
      List.append_assoc]
    simp [Keyed.update, Entry.listing, entriesOf]
  cases parent with
  | none =>
      simp only [graft]
      rw [hbelow _ hnew]
      rfl
  | some above =>
      simp only [graft]
      rw [hbelow _ (by rwa [Keyed.keys_update])]
      rfl

theorem listedUnder_graft {staging : Staging} {parent : Option Path}
    (hparent : ∀ above, parent = some above → above ∈ Keyed.keys staging.entries)
    (nodes : List Node) :
    (staging.graft parent nodes).listedUnder parent =
      staging.listedUnder parent ++ nodes.map Node.name := by
  cases parent with
  | none => rfl
  | some above =>
      have hmem := hparent above rfl
      obtain ⟨entry, hentry⟩ := Keyed.exists_get?_of_mem_keys hmem
      have hafter : Staging.entry? (staging.graft (some above) nodes) above =
          some (entry.listing (nodes.map Node.name)) := by
        rw [graft, entry?, Keyed.get?_append_of_mem _ (by rwa [Keyed.keys_update]),
          Keyed.get?_update_self, hentry]
        rfl
      rw [listedUnder, listedUnder, hafter, entry?, hentry]
      rfl

/-! ## Open places stay open -/

/-- After nodes are grafted, their names are taken beside the others. -/
theorem Open.graft {staging : Staging} {parent : Option Path} {taken : List String}
    {nodes : List Node} (hopen : staging.Open parent taken)
    (hplaced : ∀ node ∈ nodes, node.PlacedAt (Rewriter.placeUnder parent node.name)) :
    (staging.graft parent nodes).Open parent (nodes.map Node.name ++ taken) where
  parent_registered above habove := by
    rw [keys_graft]
    exact List.mem_append_left _ (hopen.parent_registered above habove)
  listed_taken := by
    intro name hname
    rw [listedUnder_graft hopen.parent_registered] at hname
    rcases List.mem_append.mp hname with hold | hgrafted
    · exact List.mem_append_right _ (hopen.listed_taken name hold)
    · exact List.mem_append_left _ hgrafted
  taken_registered := by
    intro name hname
    rw [keys_graft]
    rcases List.mem_append.mp hname with hgrafted | hold
    · obtain ⟨node, hnode, rfl⟩ := List.mem_map.mp hgrafted
      refine List.mem_append_right _ (List.mem_map.mpr ⟨node, ?_, (hplaced node hnode).path_eq⟩)
      exact List.mem_flatMap.mpr ⟨node, hnode, node.mem_preorder_self⟩
    · exact List.mem_append_left _ (hopen.taken_registered name hold)
  vacant := by
    intro name hname path hpath hstarts
    rw [List.mem_append, not_or] at hname
    rw [keys_graft] at hpath
    rcases List.mem_append.mp hpath with hold | hgrafted
    · exact hopen.vacant name hname.2 path hold hstarts
    · obtain ⟨inner, hinner, rfl⟩ := List.mem_map.mp hgrafted
      obtain ⟨node, hnode, hinner⟩ := List.mem_flatMap.mp hinner
      -- Everything in a node lies below its own name, so below no other.
      have hbelow := (hplaced node hnode).standsAt.startsWith hinner
      rw [placeUnder_name_eq hstarts hbelow] at hname
      exact hname.1 (List.mem_map_of_mem hnode)

/-- Below a node that was just staged nothing is taken. -/
theorem Open.below {staging : Staging} {parent : Option Path} {taken : List String}
    {kept : Node} (hopen : staging.Open parent taken) (hnew : kept.name ∉ taken)
    (members : List Member) :
    (staging.graft parent
      [Walk.assemble kept (Rewriter.placeUnder parent kept.name) members []]).Open
      (some (Rewriter.placeUnder parent kept.name)) [] where
  parent_registered := by
    rintro above ⟨⟩
    rw [keys_graft]
    refine List.mem_append_right _ ?_
    rw [List.flatMap_singleton, Node.preorder_eq]
    exact List.mem_cons_self
  listed_taken := by
    intro name hname
    have hfresh := hopen.notMem_keys hnew
    have hentry : (Staging.entry? (staging.graft parent
        [Walk.assemble kept (Rewriter.placeUnder parent kept.name) members []])
        (Rewriter.placeUnder parent kept.name)).map Entry.children = some [] := by
      cases parent with
      | none =>
          rw [Staging.graft, entry?, Keyed.get?_append_of_notMem _ hfresh, entriesOf_assemble,
            Keyed.get?_cons, if_pos rfl]
          rfl
      | some above =>
          rw [Staging.graft, entry?, Keyed.get?_append_of_notMem _ (by rwa [Keyed.keys_update]),
            entriesOf_assemble, Keyed.get?_cons, if_pos rfl]
          rfl
    rw [listedUnder, hentry] at hname
    exact hname
  taken_registered := by simp
  vacant := by
    intro name _ path hpath hstarts
    rw [keys_graft] at hpath
    rcases List.mem_append.mp hpath with hold | hself
    · exact hopen.vacant kept.name hnew path hold
        (Path.startsWith_trans hstarts (Path.child_startsWith _ name))
    · have hpath : path = Rewriter.placeUnder parent kept.name := by
        simpa [Node.preorder_eq, Walk.assemble] using hself
      rw [hpath] at hstarts
      exact Path.not_startsWith_child _ name hstarts

/-! ## Staging a node -/

/-- A node under a new name is staged as one that has no children yet. -/
theorem stage_eq_graft {staging : Staging} {parent : Option Path} {taken : List String}
    (hopen : staging.Open parent taken) {kept : Node} (hnew : kept.name ∉ taken)
    (members : List Member) :
    Rewriter.stage staging parent kept members = .ok (staging.graft parent
      [Walk.assemble kept (Rewriter.placeUnder parent kept.name) members []]) := by
  have hfresh := hopen.notMem_keys hnew
  have hunlisted : kept.name ∉ staging.listedUnder parent :=
    fun hmem => hnew (hopen.listed_taken _ hmem)
  -- Filling the fresh entry at the end leaves the entries before it alone.
  have hfill (entries : List (Path × Entry))
      (hpath : Rewriter.placeUnder parent kept.name ∉ Keyed.keys entries) :
      Keyed.update (Rewriter.placeUnder parent kept.name)
          (fun entry => entry.withContent
            { documentation := kept.documentation, attributes := kept.attributes,
              members := entry.members ++ members })
          (Keyed.put (Rewriter.placeUnder parent kept.name) (Entry.named kept.name) entries) =
        entries ++ entriesOf
          [Walk.assemble kept (Rewriter.placeUnder parent kept.name) members []] := by
    rw [Keyed.put_of_notMem _ hpath, Keyed.update_append_of_notMem _ _ hpath, entriesOf_assemble]
    simp [Keyed.update, Entry.named, Entry.withContent, Entry.listing, entriesOf]
  cases parent with
  | none =>
      have hroots : declare kept.name staging.roots = staging.roots ++ [kept.name] := by
        rw [declare, if_neg (by simpa [listedUnder] using hunlisted)]
      have hcontains : Keyed.contains (Path.single kept.name) staging.entries = false :=
        Keyed.contains_eq_false_iff.mpr hfresh
      have hentries := hfill staging.entries hfresh
      simp only [Rewriter.placeUnder] at hentries
      simp only [Rewriter.stage, addRoot, ensureEntry, contains, hcontains, edit, updateEntry,
        Rewriter.placeUnder, hroots, hentries, Bool.false_eq_true, if_false, graft]
      rfl
  | some above =>
      obtain ⟨entry, hentry⟩ := Keyed.exists_get?_of_mem_keys (hopen.parent_registered above rfl)
      have hchild : entry.hasChild kept.name = false := by
        simpa [listedUnder, entry?, hentry, Entry.hasChild] using hunlisted
      have hlisted : Keyed.update above (fun _ => (entry.listChild kept.name).2) staging.entries =
          Keyed.update above (·.listing [kept.name]) staging.entries := by
        refine Keyed.update_congr fun found hfound => ?_
        obtain rfl : entry = found := Option.some.inj (hentry.symm.trans hfound)
        rw [Entry.listChild, hchild]
        rfl
      have hparent : Keyed.contains above staging.entries = true :=
        (Keyed.contains_iff_mem_keys _ _).mpr (hopen.parent_registered above rfl)
      have hkeys : Rewriter.placeUnder (some above) kept.name ∉
          Keyed.keys (Keyed.update above (·.listing [kept.name]) staging.entries) := by
        rwa [Keyed.keys_update]
      have hcontains : Keyed.contains (above.child kept.name)
          (Keyed.update above (·.listing [kept.name]) staging.entries) = false :=
        Keyed.contains_eq_false_iff.mpr hkeys
      have hentries := hfill _ hkeys
      simp only [Rewriter.placeUnder] at hentries
      simp only [Rewriter.stage, addChild, contains, hparent, declareChild, entry?, hentry,
        updateEntry, hlisted, ensureEntry, hcontains, edit, Rewriter.placeUnder, hentries,
        Bool.false_eq_true, if_false, if_true, graft]
      rfl

end Staging

end TreePass
