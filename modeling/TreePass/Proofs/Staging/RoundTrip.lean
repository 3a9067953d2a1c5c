import Mathlib.Data.List.Induction
import TreePass.Proofs.Forest.Standing
import TreePass.Proofs.Staging.Carried
import TreePass.Proofs.Staging.Lookup

/-!
# Staging a forest and building it again

A forest is staged root by root. A root of a name that another one had before is
declared in the place of that one and staged over it; what the new root does not have
stays behind, but nobody lists it any more. So what is built again is the forest with
one root of each name, the last one in the place of the first, and with each member
under its name. Where two members have one name, the first such node stops the build.
-/

namespace TreePass

/-- The names of the members, which need not be their keys. -/
def Node.memberLabels (node : Node) : List String :=
  (Keyed.values node.members).map Member.name

namespace Forest

variable {forest : Forest}

/-- The last root of a name. -/
def lastRoot? (forest : Forest) (name : String) : Option Node :=
  forest.roots.reverse.find? fun root => root.name == name

/-- The forest with the last root of each name, in the order in which the names occur
for the first time. -/
def onePerName (forest : Forest) : Forest :=
  ⟨(forest.roots.map Node.name).eraseDups.filterMap forest.lastRoot?⟩

/-- What a forest comes to when it is staged and built again: it is as it was but for
the keys of its members, or the first node with two members of one name is at fault,
for the first name that is there again. -/
inductive Rebuilt (forest : Forest) : Except BuildFault Forest → Prop where
  | rekeyed (nodup : ∀ node ∈ forest.nodes, node.memberLabels.Nodup) :
      Rebuilt forest (.ok forest.rekeyed)
  | memberClash {before after : List Node} {node : Node} {earlier later : List String}
      {name : String} (nodes_eq : forest.nodes = before ++ node :: after)
      (before_nodup : ∀ other ∈ before, other.memberLabels.Nodup)
      (labels_eq : node.memberLabels = earlier ++ name :: later)
      (earlier_nodup : earlier.Nodup) (repeated : name ∈ earlier) :
      Rebuilt forest (.error (.duplicateMember node.path name))

theorem rebuilt_iff {answer : Except BuildFault Forest} :
    forest.Rebuilt answer ↔ unlessFault forest.memberClash forest.rekeyed = answer := by
  constructor
  · intro hrebuilt
    cases hrebuilt with
    | rekeyed hnodup => rw [memberClash_eq_none_iff.mpr hnodup, unlessFault, Option.elim_none]
    | @memberClash before after node earlier later name hnodes hbefore hlabels hearlier hrepeated =>
        have hnone : firstRepeated [] earlier = none :=
          firstRepeated_eq_none_iff.mpr ⟨hearlier, by simp⟩
        have hname : firstRepeated [] node.memberLabels = some name :=
          firstRepeated_eq_some_iff.mpr ⟨earlier, later, hlabels, hnone, .inr hrepeated⟩
        have hnode : node.memberClash = some (.duplicateMember node.path name) :=
          Option.map_eq_some_iff.mpr ⟨name, hname, rfl⟩
        have hforest : forest.memberClash = some (.duplicateMember node.path name) :=
          List.findSome?_eq_some_iff.mpr ⟨before, node, after, hnodes, hnode,
            fun other hother => Node.memberClash_eq_none_iff.mpr (hbefore other hother)⟩
        rw [hforest, unlessFault, Option.elim_some]
  · rintro rfl
    cases hclash : forest.memberClash with
    | none => exact .rekeyed (memberClash_eq_none_iff.mp hclash)
    | some fault =>
        obtain ⟨before, node, after, hnodes, hnode, hbefore⟩ :=
          List.findSome?_eq_some_iff.mp hclash
        obtain ⟨name, hname, rfl⟩ := Option.map_eq_some_iff.mp hnode
        obtain ⟨earlier, later, hlabels, hnone, hseen | hrepeated⟩ :=
          firstRepeated_eq_some_iff.mp hname
        · simp at hseen
        · exact .memberClash hnodes
            (fun other hother => Node.memberClash_eq_none_iff.mp (hbefore other hother))
            hlabels (firstRepeated_eq_none_iff.mp hnone).1 hrepeated

/-! ## One root of each name -/

theorem lastRoot?_eq_some_iff {name : String} {root : Node} :
    forest.lastRoot? name = some root ↔ root.name = name ∧
      ∃ before after, forest.roots = before ++ root :: after ∧
        ∀ other ∈ after, other.name ≠ name := by
  rw [lastRoot?, List.find?_eq_some_iff_append, beq_iff_eq]
  refine and_congr_right fun _ => ⟨?_, ?_⟩
  · rintro ⟨after, before, hroots, hafter⟩
    refine ⟨before.reverse, after.reverse, ?_, fun other hother => ?_⟩
    · rw [← List.reverse_reverse forest.roots, hroots]
      simp
    · simpa using hafter other (List.mem_reverse.mp hother)
  · rintro ⟨before, after, hroots, hafter⟩
    refine ⟨after.reverse, before.reverse, by simp [hroots], fun other hother => ?_⟩
    simpa using hafter other (List.mem_reverse.mp hother)

theorem exists_lastRoot? {name : String} (hname : name ∈ forest.roots.map Node.name) :
    ∃ root, forest.lastRoot? name = some root := by
  obtain ⟨root, hroot, rfl⟩ := List.mem_map.mp hname
  refine Option.isSome_iff_exists.mp (List.find?_isSome.mpr ?_)
  exact ⟨root, List.mem_reverse.mpr hroot, beq_self_eq_true _⟩

theorem mem_onePerName {root : Node} (hroot : root ∈ forest.onePerName.roots) :
    forest.lastRoot? root.name = some root := by
  obtain ⟨name, -, hlast⟩ := List.mem_filterMap.mp hroot
  rwa [(lastRoot?_eq_some_iff.mp hlast).1]

theorem mem_of_lastRoot? {name : String} {root : Node}
    (hlast : forest.lastRoot? name = some root) : root ∈ forest.roots :=
  List.mem_reverse.mp (List.mem_of_find?_eq_some hlast)

theorem names_onePerName (forest : Forest) :
    forest.onePerName.roots.map Node.name = (forest.roots.map Node.name).eraseDups := by
  rw [onePerName, List.map_filterMap]
  refine (List.filterMap_congr fun name hname => ?_).trans List.filterMap_some
  obtain ⟨root, hroot⟩ := exists_lastRoot? (List.mem_eraseDups.mp hname)
  rw [hroot, Option.map_some, (lastRoot?_eq_some_iff.mp hroot).1]

theorem eraseDups_of_nodup {names : List String} (hnodup : names.Nodup) :
    names.eraseDups = names := by
  induction names with
  | nil => rfl
  | cons name rest ih =>
      obtain ⟨hname, hrest⟩ := List.nodup_cons.mp hnodup
      have hkept : rest.filter (fun other => !other == name) = rest :=
        List.filter_eq_self.mpr fun other hother => by
          simpa using ne_of_mem_of_not_mem hother hname
      rw [List.eraseDups_cons, hkept, ih hrest]

/-- If no name occurs twice, every root is the last one of its name. -/
theorem onePerName_of_nodup (hnames : (forest.roots.map Node.name).Nodup) :
    forest.onePerName = forest := by
  refine congrArg mk ?_
  rw [eraseDups_of_nodup hnames, List.filterMap_map]
  refine (List.filterMap_congr fun root hroot => ?_).trans List.filterMap_some
  obtain ⟨last, hlast⟩ := exists_lastRoot? (List.mem_map_of_mem (f := Node.name) hroot)
  have hname := (lastRoot?_eq_some_iff.mp hlast).1
  rw [Function.comp_apply, hlast,
    List.inj_on_of_nodup_map hnames (mem_of_lastRoot? hlast) hroot hname]

end Forest

namespace Staging

variable {forest : Forest}

/-! ## What is staged of a forest -/

theorem eraseDups_concat (names : List String) (name : String) :
    (names ++ [name]).eraseDups = declare name names.eraseDups := by
  rw [List.eraseDups_append, declare]
  split
  next hmem =>
    have hold : name ∈ names := by simpa using hmem
    simp [List.removeAll, hold]
  next hmem =>
    have hnew : name ∉ names := by simpa using hmem
    simp [List.removeAll, hnew, List.eraseDups_cons]

theorem roots_ofForest (forest : Forest) :
    (ofForest forest).roots = (forest.roots.map Node.name).eraseDups := by
  rw [ofForest]
  induction forest.roots using List.reverseRecOn with
  | nil => rfl
  | append_singleton roots root ih =>
      rw [List.foldl_append, List.foldl_cons, List.foldl_nil, List.map_append, List.map_cons,
        List.map_nil, eraseDups_concat, ← ih]
      rfl

/-- Roots of other names leave a path as it is staged. -/
theorem entry?_stageRoots_off {path : Path} {roots : List Node}
    (hoff : ∀ root ∈ roots, root.name ≠ path.root) (staging : Staging) :
    entry? (roots.foldl stageRoot staging) path = staging.entry? path := by
  induction roots generalizing staging with
  | nil => rfl
  | cons root rest ih =>
      obtain ⟨hroot, hrest⟩ := List.forall_mem_cons.mp hoff
      have hapart : ¬ path.startsWith (.single root.name) = true :=
        fun hstarts => hroot (Path.single_name_eq hstarts
          (Path.extend_startsWith (.single path.root) path.rest))
      rw [List.foldl_cons, ih hrest]
      exact get?_registerNode_off root _ hapart _

/-- The last root of a name is staged as a whole. -/
theorem carries_lastRoot (hplaced : forest.Placed) (hdistinct : forest.Distinct) {name : String}
    {root : Node} (hlast : forest.lastRoot? name = some root) :
    Carries (ofForest forest) root := by
  intro inner hinner
  have hmem := Forest.mem_of_lastRoot? hlast
  obtain ⟨rfl, before, after, hroots, hafter⟩ := Forest.lastRoot?_eq_some_iff.mp hlast
  obtain ⟨keys, hleads⟩ := Node.mem_preorder_iff_leads.mp hinner
  have hpath := (Forest.placed_iff.mp hplaced root hmem).path_of_leads hleads
  rw [hpath, ofForest, hroots, List.foldl_append, List.foldl_cons,
    entry?_stageRoots_off hafter]
  have hroot := hdistinct root hmem
  refine (get?_registerNode hroot (.single root.name) keys _).trans ?_
  rw [hleads.descend_eq hroot, Option.map_some, Option.some_or]

/-- Staging and building again gives every forest with one root of each name and each
member under its name, or a fault if members of one node have one name. Where no two
roots and no two members of one node have one name and members are under their names,
the forest itself comes back. -/
theorem build_ofForest_iff (hplaced : forest.Placed) (hdistinct : forest.Distinct)
    (policy : MissingChild) :
    (∀ answer, (ofForest forest).build policy = answer ↔ forest.onePerName.Rebuilt answer) ∧
      ((forest.roots.map Node.name).Nodup →
        (∀ node ∈ forest.nodes, ∀ entry ∈ node.members, entry.1 = entry.2.name) →
        (ofForest forest).build policy = .ok forest) := by
  have hlast : ∀ root ∈ forest.onePerName.roots, root ∈ forest.roots :=
    fun root hroot => Forest.mem_of_lastRoot? (Forest.mem_onePerName hroot)
  have hbuilt : (ofForest forest).build policy =
      unlessFault forest.onePerName.memberClash forest.onePerName.rekeyed := by
    apply build_rekeyed policy
    · rw [roots_ofForest, Forest.names_onePerName]
    · exact fun root hroot => Forest.placed_iff.mp hplaced root (hlast root hroot)
    · intro node hnode
      obtain ⟨root, hroot, hnode⟩ := List.mem_flatMap.mp hnode
      exact (hdistinct root (hlast root hroot) node hnode).2
    · exact fun root hroot => carries_lastRoot hplaced hdistinct (Forest.mem_onePerName hroot)
  refine ⟨fun answer => by rw [hbuilt, Forest.rebuilt_iff], fun hnames hkeys => ?_⟩
  rw [hbuilt, Forest.onePerName_of_nodup hnames, Forest.rekeyed_eq_self hkeys]
  have hnone : forest.memberClash = none := by
    refine Forest.memberClash_eq_none_iff.mpr fun node hnode => ?_
    obtain ⟨root, hroot, hinner⟩ := List.mem_flatMap.mp hnode
    have hlabels : (Keyed.values node.members).map Member.name = Keyed.keys node.members := by
      rw [Keyed.values, List.map_map]
      exact List.map_congr_left fun entry hentry => (hkeys node hnode entry hentry).symm
    rw [hlabels]
    exact (hdistinct root hroot node hinner).1
  rw [hnone, unlessFault, Option.elim_none]

/-- A root whose child goes when another root of its name is staged over it. The later
root has a child and a member under keys that are not their names. -/
def doubled : Forest :=
  .ofRoots [(Node.named "a").withChild (.named "x"), .named "b",
    ((Node.named "a").withMemberAt "key" (.named "m")).withChildAt "k" (.named "y")]

theorem build_ofForest_doubled :
    doubled.Placed ∧ doubled.Distinct ∧ contains (ofForest doubled) ⟨"a", ["x"]⟩ = true ∧
      (ofForest doubled).build .refuse = .ok (.ofRoots
        [((Node.named "a").withMember (.named "m")).withChildAt "k" (.named "y"), .named "b"]) := by
  have hplaced : doubled.Placed := rfl
  have hdistinct : doubled.Distinct := by decide
  have hrebuilt : doubled.onePerName.Rebuilt (.ok doubled.onePerName.rekeyed) :=
    .rekeyed (by decide)
  refine ⟨hplaced, hdistinct, rfl, ?_⟩
  exact ((build_ofForest_iff hplaced hdistinct .refuse).1 _).mpr hrebuilt

end Staging

end TreePass
