import Mathlib.Data.List.Nodup
import TreePass.Proofs.Staging.Carried
import TreePass.Rewrite

/-!
# Entries that are named by their paths

A staging area is named when no root is declared twice and every entry has the
last name of its path. That is all that a build needs: whatever comes out of a
named staging area is well placed, with or without gaps.
-/

namespace TreePass

namespace Staging

/-- No root is declared twice, and entries have the last names of their paths. -/
structure Named (staging : Staging) : Prop where
  roots_nodup : staging.roots.Nodup
  entry_name : ∀ entry ∈ staging.entries, entry.2.name = entry.1.leaf

theorem named_empty : empty.Named where
  roots_nodup := List.nodup_nil
  entry_name := by simp [empty]

/-! ## Edits -/

theorem nodup_declare {name : String} {names : List String} (hnodup : names.Nodup) :
    (declare name names).Nodup := by
  rw [declare]
  split
  next => exact hnodup
  next hnew =>
    exact hnodup.append (List.nodup_singleton name) (by simpa using hnew)

theorem Named.ensureEntry {staging : Staging} (hnamed : staging.Named) {path : Path}
    {name : String} (hname : name = path.leaf) : (staging.ensureEntry path name).Named := by
  rw [Staging.ensureEntry]
  split
  next => exact hnamed
  next =>
    refine ⟨hnamed.roots_nodup, fun entry hentry => ?_⟩
    rcases Keyed.mem_put hentry with rfl | hold
    · exact hname
    · exact hnamed.entry_name entry hold

theorem Named.updateEntry {staging : Staging} (hnamed : staging.Named) (path : Path)
    {f : Entry → Entry} (hf : ∀ entry : Entry, (f entry).name = entry.name) :
    (staging.updateEntry path f).Named := by
  refine ⟨hnamed.roots_nodup, fun entry hentry => ?_⟩
  rcases Keyed.mem_update hentry with hold | ⟨value, hvalue, rfl⟩
  · exact hnamed.entry_name entry hold
  · exact (hf value).trans (hnamed.entry_name _ hvalue)

theorem Named.addRoot {staging : Staging} (hnamed : staging.Named) (name : String) :
    (staging.addRoot name).Named := by
  have hdeclared : Named { staging with roots := declare name staging.roots } :=
    ⟨nodup_declare hnamed.roots_nodup, hnamed.entry_name⟩
  exact hdeclared.ensureEntry rfl

theorem Named.declareChild {staging : Staging} (hnamed : staging.Named) (parent : Path)
    (name : String) : (staging.declareChild parent name).2.Named := by
  rw [Staging.declareChild]
  cases hentry : staging.entry? parent with
  | none => exact hnamed
  | some entry =>
      have hname : (entry.listChild name).2.name = entry.name := by
        rw [Entry.listChild]
        split <;> rfl
      refine ⟨hnamed.roots_nodup, fun other hother => ?_⟩
      rcases Keyed.mem_update hother with hold | ⟨_, _, rfl⟩
      · exact hnamed.entry_name other hold
      · exact hname.trans (hnamed.entry_name _ (Keyed.mem_of_get? hentry))

theorem Named.addChild {staging : Staging} (hnamed : staging.Named) (parent : Path)
    (name : String) : (staging.addChild parent name).2.Named := by
  rw [Staging.addChild]
  split
  next => exact (hnamed.declareChild parent name).ensureEntry (Path.leaf_child parent name).symm
  next => exact hnamed

/-- Staging a node keeps a staging area named, whatever the node holds. -/
theorem Named.stage {staging after : Staging} (hnamed : staging.Named) {parent : Option Path}
    {node : Node} {members : List Member}
    (hstage : Rewriter.stage staging parent node members = .ok after) : after.Named := by
  cases parent with
  | none =>
      cases hstage
      exact (hnamed.addRoot node.name).updateEntry _ fun _ => rfl
  | some above =>
      have hadded := hnamed.addChild above node.name
      rw [Rewriter.stage] at hstage
      dsimp only at hstage
      split at hstage
      next listed hchild =>
        cases hstage
        rw [hchild] at hadded
        exact hadded.updateEntry _ fun _ => rfl
      next => cases hstage

/-! ## Builds -/

theorem buildMembers_eq_ok {path : Path} {members : List Member}
    {built : List (String × Member)} (hbuilt : buildMembers path members = .ok built) :
    Keyed.Distinct built ∧ ∀ entry ∈ built, entry.1 = entry.2.name := by
  rw [buildMembers] at hbuilt
  split at hbuilt
  next => cases hbuilt
  next hnone =>
    cases hbuilt
    constructor
    · rw [Keyed.Distinct, Keyed.keys_map_label]
      exact (firstRepeated_eq_none_iff.mp hnone).1
    · intro entry hentry
      obtain ⟨member, _, rfl⟩ := List.mem_map.mp hentry
      rfl

/-- A node that stands at a path, as everything in it stands where its names say,
and that holds no member twice. -/
def Stands (path : Path) (node : Node) : Prop :=
  node.name = path.leaf ∧ node.PlacedAt path ∧
    ∀ inner ∈ node.preorder, Keyed.Distinct inner.members

theorem stands_placed {name : String} {path : Path} (hname : name = path.leaf) :
    Stands path (Node.placed name path) := by
  refine ⟨hname, .intro rfl ?_ ?_ List.nodup_nil ?_, ?_⟩
  · simp [Node.placed]
  · simp [Node.placed]
  · simp [Node.placed]
  · simp [Node.preorder_eq, Node.placed, Keyed.Distinct]

/-- A node stands if its members are a map and its children stand. -/
theorem stands_of_children {path : Path} {entry : Entry} (hname : entry.name = path.leaf)
    {members : List (String × Member)} {children : List (String × Node)}
    (hmembers : Keyed.Distinct members ∧ ∀ entry ∈ members, entry.1 = entry.2.name)
    (hchildren : ∀ child ∈ children, Stands (path.child child.1) child.2) :
    Stands path ⟨entry.name, entry.documentation, entry.attributes, members,
      Keyed.ofList children, path⟩ := by
  have hkept : ∀ child ∈ Keyed.ofList children, child.1 = child.2.name ∧
      Stands (path.child child.1) child.2 := by
    intro child hchild
    have hstands := hchildren child (Keyed.mem_of_mem_ofList hchild)
    exact ⟨(hstands.1.trans (Path.leaf_child _ _)).symm, hstands⟩
  refine ⟨hname, .intro rfl hmembers.2 ?_ (Keyed.distinct_ofList children) ?_, ?_⟩
  · exact fun child hchild => (hkept child hchild).1
  · intro child hchild
    rw [← (hkept child hchild).1]
    exact (hkept child hchild).2.2.1
  · intro inner hinner
    rcases Node.mem_preorder_iff.mp hinner with rfl | ⟨child, hchild, hinner⟩
    · exact hmembers.1
    · exact (hkept child hchild).2.2.2 inner hinner

theorem buildAt_stands {staging : Staging} (hnamed : staging.Named) {policy : MissingChild}
    {path : Path} {node : Node} (hbuilt : staging.buildAt policy path = .ok node) :
    Stands path node := by
  induction path using staging.induction_descent generalizing node with
  | step path ih =>
      rw [buildAt] at hbuilt
      cases hentry : staging.entry? path with
      | none =>
          rw [hentry] at hbuilt
          cases hbuilt
      | some entry =>
          rw [hentry] at hbuilt
          obtain ⟨members, hmembers, hbuilt⟩ := bind_eq_ok.mp hbuilt
          obtain ⟨children, hchildren, hbuilt⟩ := bind_eq_ok.mp hbuilt
          cases hbuilt
          have hleaf : entry.name = path.leaf :=
            hnamed.entry_name _ (Keyed.mem_of_get? hentry)
          refine stands_of_children hleaf (buildMembers_eq_ok hmembers) fun child hchild => ?_
          obtain ⟨name, _, hname⟩ := exists_of_mem_mapM hchildren hchild
          dsimp only at hname
          split at hname
          next hregistered =>
            obtain ⟨built, hbuilt, hname⟩ := bind_eq_ok.mp hname
            cases hname
            exact ih _ hregistered hbuilt
          next =>
            obtain ⟨gap, hgap, hname⟩ := bind_eq_ok.mp hname
            cases hname
            cases policy with
            | refuse => cases hgap
            | fill =>
                cases hgap
                exact stands_placed (Path.leaf_child _ _).symm

theorem buildRoot_stands {staging : Staging} (hnamed : staging.Named) {policy : MissingChild}
    {name : String} {root : Node} (hbuilt : staging.buildRoot policy name = .ok root) :
    Stands (.single name) root := by
  unfold buildRoot at hbuilt
  split at hbuilt
  next => exact buildAt_stands hnamed hbuilt
  next =>
    cases policy with
    | refuse => cases hbuilt
    | fill =>
        cases hbuilt
        exact stands_placed rfl

/-- Whatever is built of a named staging area is well placed. -/
theorem build_wellPlaced {staging : Staging} (hnamed : staging.Named) {policy : MissingChild}
    {forest : Forest} (hbuilt : staging.build policy = .ok forest) : forest.WellPlaced := by
  obtain ⟨roots, hroots, hbuilt⟩ := bind_eq_ok.mp hbuilt
  have hnames : roots.map Node.name = staging.roots :=
    map_eq_of_mapM hroots fun name root hroot => (buildRoot_stands hnamed hroot).1
  have hstands : ∀ root ∈ roots, Stands (.single root.name) root := by
    intro root hroot
    obtain ⟨name, _, hname⟩ := exists_of_mem_mapM hroots hroot
    have hroot := buildRoot_stands hnamed hname
    rw [show root.name = name from hroot.1]
    exact hroot
  have hplaced : ∀ root ∈ roots, root.PlacedAt (.single root.name) :=
    fun root hroot => (hstands root hroot).2.1
  rw [Forest.ofRoots_of_placed hplaced] at hbuilt
  cases hbuilt
  refine ⟨?_, hplaced, ?_⟩
  · rw [hnames]
    exact hnamed.roots_nodup
  · intro node hnode
    obtain ⟨root, hroot, hnode⟩ := List.mem_flatMap.mp hnode
    exact (hstands root hroot).2.2 node hnode

end Staging

end TreePass
