import TreePass.Proofs.Node.Alike

/-!
# Twins

Twins are alike nodes without repeated keys that stand at the same paths, they and
everything in them. What is done to both of them through keys leaves twins. Forests
are twins when their roots are, one by one; where every node stands at its keys, the
twins of a forest are the forests that are the same.
-/

namespace TreePass

namespace Node

variable {node other after after' : Node}

theorem child?_withChildAt (node child : Node) (key other : String) :
    (node.withChildAt key child).child? other =
      if key = other then some child else node.child? other :=
  Keyed.get?_put key other child node.children

/-- Alike nodes that stand at the same paths, with everything in them. -/
structure Twin (node other : Node) : Prop where
  distinct : node.Distinct
  other_distinct : other.Distinct
  looks : node.Looks (fun inner => (inner.path, inner.face)) other

namespace Twin

theorem self (hnode : node.Distinct) : node.Twin node := ⟨hnode, hnode, .refl node⟩

theorem symm (htwin : node.Twin other) : other.Twin node :=
  ⟨htwin.other_distinct, htwin.distinct, htwin.looks.symm⟩

theorem alike (htwin : node.Twin other) : node.Alike other :=
  htwin.looks.weaken (g := Prod.snd)

theorem path_eq (htwin : node.Twin other) : node.path = other.path :=
  congrArg Prod.fst htwin.looks.top

theorem face_eq (htwin : node.Twin other) : node.face = other.face :=
  htwin.alike.top

theorem name_eq (htwin : node.Twin other) : node.name = other.name :=
  congrArg Face.name htwin.face_eq

theorem attributes_eq (htwin : node.Twin other) : node.attributes = other.attributes :=
  congrArg Face.attributes htwin.face_eq

theorem documentation_eq (htwin : node.Twin other) : node.documentation = other.documentation :=
  congrArg Face.documentation htwin.face_eq

theorem members_eq (htwin : node.Twin other) :
    (node.members : Multiset (String × Member)) = other.members :=
  congrArg Face.members htwin.face_eq

theorem members_perm (htwin : node.Twin other) : node.members.Perm other.members :=
  Multiset.coe_eq_coe.mp htwin.members_eq

theorem child (htwin : node.Twin other) (key : String) :
    Option.Rel Twin (node.child? key) (other.child? key) := by
  refine rel_of_mem (htwin.looks.child key) fun found hfound found' hfound' hlooks => ?_
  exact ⟨htwin.distinct.child (Keyed.mem_of_get? hfound),
    htwin.other_distinct.child (Keyed.mem_of_get? hfound'), hlooks⟩

theorem intro (hpath : node.path = other.path) (hface : node.face = other.face)
    (hmembers : Keyed.Distinct node.members) (hchildren : Keyed.Distinct node.children)
    (hchildren' : Keyed.Distinct other.children)
    (hchild : ∀ key, Option.Rel Twin (node.child? key) (other.child? key)) : node.Twin other where
  distinct := by
    refine distinct_iff.mpr ⟨⟨hmembers, hchildren⟩, fun entry hentry => ?_⟩
    have hkey := hchild entry.1
    rw [child?, Keyed.get?_eq_some_of_mem hchildren hentry] at hkey
    generalize other.child? entry.1 = found at hkey
    cases hkey with
    | some htwin => exact htwin.distinct
  other_distinct := by
    have hperm : node.members.Perm other.members :=
      Multiset.coe_eq_coe.mp (congrArg Face.members hface)
    refine distinct_iff.mpr ⟨⟨(hperm.map Prod.fst).nodup_iff.mp hmembers, hchildren'⟩,
      fun entry hentry => ?_⟩
    have hkey := hchild entry.1
    rw [child?, child?, Keyed.get?_eq_some_of_mem hchildren' hentry] at hkey
    generalize Keyed.get? entry.1 node.children = found at hkey
    cases hkey with
    | some htwin => exact htwin.other_distinct
  looks := .of_children (Prod.ext hpath hface) fun key =>
    rel_of_mem (hchild key) fun _ _ _ _ htwin => htwin.looks

/-- Twins stay twins when their own data change alike. -/
theorem refit (htwin : node.Twin other) (hpath : after.path = node.path)
    (hpath' : after'.path = other.path) (hchildren : after.children = node.children)
    (hchildren' : after'.children = other.children) (hface : after.face = after'.face)
    (hmembers : Keyed.Distinct after.members) : after.Twin after' := by
  refine intro (by rw [hpath, hpath', htwin.path_eq]) hface hmembers ?_ ?_ fun key => ?_
  · exact hchildren ▸ htwin.distinct.children
  · exact hchildren' ▸ htwin.other_distinct.children
  · rw [child?, child?, hchildren, hchildren']
    exact htwin.child key

theorem withMember (htwin : node.Twin other) (member : Member) :
    (node.withMember member).Twin (other.withMember member) := by
  have hdistinct : Keyed.Distinct (Keyed.put member.name member node.members) :=
    Keyed.distinct_put htwin.distinct.members
  have hdistinct' : Keyed.Distinct (Keyed.put member.name member other.members) :=
    Keyed.distinct_put htwin.other_distinct.members
  have hsame := (Keyed.perm_iff_get? htwin.distinct.members htwin.other_distinct.members).mp
    htwin.members_perm
  have hperm : (Keyed.put member.name member node.members).Perm
      (Keyed.put member.name member other.members) := by
    refine (Keyed.perm_iff_get? hdistinct hdistinct').mpr fun key => ?_
    rw [Keyed.get?_put, Keyed.get?_put, hsame]
  refine htwin.refit rfl rfl rfl rfl ?_ hdistinct
  simp only [face, Node.withMember, withMemberAt, htwin.name_eq, htwin.documentation_eq,
    htwin.attributes_eq, Multiset.coe_eq_coe.mpr hperm]

theorem withChild (htwin : node.Twin other) {child : Node} (hchild : child.Distinct) :
    (node.withChild child).Twin (other.withChild child) := by
  refine intro htwin.path_eq htwin.face_eq htwin.distinct.members
    (Keyed.distinct_put htwin.distinct.children)
    (Keyed.distinct_put htwin.other_distinct.children) fun key => ?_
  rw [Node.withChild, Node.withChild, child?_withChildAt, child?_withChildAt, htwin.path_eq]
  split
  next => exact .some (self (hchild.reroot _))
  next => exact htwin.child key

theorem withoutChild (htwin : node.Twin other) (name : String) :
    (node.withoutChild name).Twin (other.withoutChild name) := by
  refine intro htwin.path_eq htwin.face_eq htwin.distinct.members
    (Keyed.distinct_erase _ htwin.distinct.children)
    (Keyed.distinct_erase _ htwin.other_distinct.children) fun key => ?_
  rw [child?, child?, Node.withoutChild, Node.withoutChild, Keyed.get?_erase, Keyed.get?_erase]
  split
  next => exact .none
  next => exact htwin.child key

theorem setName (htwin : node.Twin other) (name : String) :
    Twin { node with name } { other with name } :=
  htwin.refit rfl rfl rfl rfl
    (by simp only [face, htwin.documentation_eq, htwin.attributes_eq, htwin.members_eq])
    htwin.distinct.members

theorem setDocumentation (htwin : node.Twin other) (documentation : Option String) :
    Twin { node with documentation } { other with documentation } :=
  htwin.refit rfl rfl rfl rfl
    (by simp only [face, htwin.name_eq, htwin.attributes_eq, htwin.members_eq])
    htwin.distinct.members

theorem setAttributes (htwin : node.Twin other) (attributes : AttributeSet) :
    Twin { node with attributes } { other with attributes } :=
  htwin.refit rfl rfl rfl rfl
    (by simp only [face, htwin.name_eq, htwin.documentation_eq, htwin.members_eq])
    htwin.distinct.members

theorem descend (htwin : node.Twin other) (keys : List String) :
    Option.Rel Twin (node.descend keys) (other.descend keys) := by
  induction keys generalizing node other with
  | nil => exact .some htwin
  | cons key keys ih =>
      have hchild := htwin.child key
      rw [Node.descend, Node.descend]
      generalize node.child? key = found, other.child? key = found' at hchild
      cases hchild with
      | none => exact .none
      | some hchild => exact ih hchild

theorem childNames_perm (htwin : node.Twin other) : node.childNames.Perm other.childNames :=
  (List.perm_ext_iff_of_nodup htwin.distinct.children htwin.other_distinct.children).mpr
    htwin.looks.mem_keys_iff

theorem memberNames_perm (htwin : node.Twin other) : node.memberNames.Perm other.memberNames :=
  htwin.members_perm.map Prod.fst

theorem children_isEmpty (htwin : node.Twin other) :
    node.children.isEmpty = other.children.isEmpty := by
  have hlength := htwin.childNames_perm.length_eq
  rw [childNames, childNames, Keyed.keys, Keyed.keys, List.length_map, List.length_map] at hlength
  rw [Bool.eq_iff_iff, List.isEmpty_iff_length_eq_zero, List.isEmpty_iff_length_eq_zero, hlength]

end Twin

theorem child?_reroot (path : Path) (node : Node) (key : String) :
    (node.reroot path).child? key = (node.child? key).map (·.reroot (path.child key)) := by
  rw [child?, child?, reroot_children, Keyed.get?_map_value]

/-- To put a node at another path makes no difference apart from paths. -/
theorem alike_reroot (path : Path) (node : Node) : (node.reroot path).Alike node := by
  induction node using Node.induction generalizing path with
  | step node ih =>
      refine .of_children (node.face_reroot path) fun key => ?_
      rw [child?_reroot]
      cases hchild : node.child? key with
      | none => exact .none
      | some child => exact .some (ih _ (Keyed.mem_of_get? hchild) _)

/-- Alike nodes become twins when they are put in one place. -/
theorem Alike.reroot (halike : node.Alike other) (hnode : node.Distinct)
    (hother : other.Distinct) (path : Path) : (node.reroot path).Twin (other.reroot path) := by
  induction node using Node.induction generalizing other path with
  | step node ih =>
      have hface : (node.reroot path).face = (other.reroot path).face := by
        rw [face_reroot, face_reroot]
        exact halike.top
      refine .intro (by rw [path_reroot, path_reroot]) hface (hnode.reroot path).members
        (hnode.reroot path).children (hother.reroot path).children fun key => ?_
      rw [child?_reroot, child?_reroot]
      have hchild := halike.child key
      cases hfound : node.child? key with
      | none =>
          rw [hfound] at hchild
          generalize other.child? key = found' at hchild
          cases hchild
          exact .none
      | some child =>
          rw [hfound] at hchild
          cases hfound' : other.child? key with
          | none =>
              rw [hfound'] at hchild
              cases hchild
          | some child' =>
              rw [hfound'] at hchild
              have hmem := Keyed.mem_of_get? hfound
              cases hchild with
              | some hchild =>
                  exact .some (ih _ hmem hchild (hnode.child hmem)
                    (hother.child (Keyed.mem_of_get? hfound')) _)

end Node

/-! ## Forests -/

/-- A relation of the items of two lists carries over to another one that it implies of them. -/
theorem forall₂_of_mem {α β : Type} {R S : α → β → Prop} {items : List α} {others : List β}
    (himp : ∀ item ∈ items, ∀ other ∈ others, R item other → S item other)
    (hitems : List.Forall₂ R items others) : List.Forall₂ S items others := by
  induction hitems with
  | nil => exact .nil
  | cons hfirst _ ih =>
      refine .cons (himp _ List.mem_cons_self _ List.mem_cons_self hfirst) (ih ?_)
      intro item hitem other hother
      exact himp item (List.mem_cons_of_mem _ hitem) other (List.mem_cons_of_mem _ hother)

namespace Forest

/-- The roots are twins, one by one. -/
def Twin (forest other : Forest) : Prop :=
  List.Forall₂ Node.Twin forest.roots other.roots

/-- Every node stands at the keys that lead to it. -/
def Placed (forest : Forest) : Prop :=
  ofRoots forest.roots = forest

theorem sameRoots_iff {roots others : List Node} :
    sameRoots roots others = true ↔ List.Forall₂ (fun root other => root.same other = true)
      roots others := by
  induction roots generalizing others with
  | nil =>
      cases others with
      | nil => simp [sameRoots]
      | cons other rest => simp [sameRoots]
  | cons root roots ih =>
      cases others with
      | nil => simp [sameRoots]
      | cons other rest => rw [sameRoots, Bool.and_eq_true, ih, List.forall₂_cons]

/-- A forest without repeated keys is the same as itself. -/
theorem same_self {forest : Forest} (hforest : forest.Distinct) : forest.same forest = true := by
  refine sameRoots_iff.mpr (List.forall₂_same.mpr fun root hroot => ?_)
  exact Node.same_of_alike (hforest root hroot) (hforest root hroot) (.refl root)

/-- Equality of forests without repeated keys is likeness of their roots, one by one. -/
theorem same_iff_alike {forest other : Forest} (hforest : forest.Distinct)
    (hother : other.Distinct) :
    forest.same other = true ↔ List.Forall₂ Node.Alike forest.roots other.roots := by
  have hiff {root root' : Node} (hroot : root ∈ forest.roots) (hroot' : root' ∈ other.roots) :
      root.same root' = true ↔ root.Alike root' :=
    Node.same_iff_alike (hforest root hroot) (hother root' hroot')
  rw [same, sameRoots_iff]
  constructor
  · exact forall₂_of_mem fun _ hroot _ hroot' => (hiff hroot hroot').mp
  · exact forall₂_of_mem fun _ hroot _ hroot' => (hiff hroot hroot').mpr

theorem same_trans {forest other third : Forest} (hforest : forest.Distinct)
    (hother : other.Distinct) (hthird : third.Distinct) (hsame : forest.same other = true)
    (hsame' : other.same third = true) : forest.same third = true := by
  rw [same_iff_alike hforest hother] at hsame
  rw [same_iff_alike hother hthird] at hsame'
  rw [same_iff_alike hforest hthird]
  generalize forest.roots = roots, other.roots = others, third.roots = last at hsame hsame'
  induction hsame generalizing last with
  | nil =>
      cases hsame'
      exact .nil
  | cons halike _ ih =>
      cases hsame' with
      | cons halike' hrest => exact .cons (halike.trans halike') (ih _ hrest)

/-- Forests that are the same are twins if their nodes stand at their keys. -/
theorem twin_of_same {forest other : Forest} (hforest : forest.Placed) (hother : other.Placed)
    (hdistinct : forest.Distinct) (hdistinct' : other.Distinct)
    (hsame : forest.same other = true) : forest.Twin other := by
  have hrerooted : List.Forall₂ Node.Twin (forest.roots.map Node.asRoot)
      (other.roots.map Node.asRoot) := by
    rw [List.forall₂_map_left_iff, List.forall₂_map_right_iff]
    refine forall₂_of_mem ?_ ((same_iff_alike hdistinct hdistinct').mp hsame)
    intro root hroot root' hroot' halike
    rw [Node.asRoot, Node.asRoot, halike.name_eq]
    exact halike.reroot (hdistinct root hroot) (hdistinct' root' hroot') _
  have hroots : forest.roots.map Node.asRoot = forest.roots := congrArg Forest.roots hforest
  have hroots' : other.roots.map Node.asRoot = other.roots := congrArg Forest.roots hother
  rwa [hroots, hroots'] at hrerooted

namespace Twin

variable {forest other next next' : Forest}

theorem self (hforest : forest.Distinct) : forest.Twin forest :=
  List.forall₂_same.mpr fun root hroot => .self (hforest root hroot)

theorem symm (htwin : forest.Twin other) : other.Twin forest :=
  List.Forall₂.flip (htwin.imp fun _ _ hroot => hroot.symm)

theorem distinct (htwin : forest.Twin other) : forest.Distinct := by
  rw [Forest.Twin] at htwin
  rw [Forest.Distinct]
  generalize forest.roots = roots, other.roots = others at htwin
  induction htwin with
  | nil => simp
  | cons hroot _ ih => exact List.forall_mem_cons.mpr ⟨hroot.distinct, ih⟩

theorem root? (htwin : forest.Twin other) (name : String) :
    Option.Rel Node.Twin (forest.root? name) (other.root? name) := by
  rw [Forest.Twin] at htwin
  rw [Forest.root?, Forest.root?]
  generalize forest.roots = roots, other.roots = others at htwin
  induction htwin with
  | nil => exact .none
  | cons hroot _ ih =>
      rw [List.find?_cons, List.find?_cons, hroot.name_eq]
      split
      next => exact .some hroot
      next => exact ih

theorem contains_eq (htwin : forest.Twin other) (path : Path) :
    forest.contains path = other.contains path := by
  have hroot := htwin.root? path.root
  rw [contains, contains, find?, find?]
  generalize forest.root? path.root = found, other.root? path.root = found' at hroot
  cases hroot with
  | none => rfl
  | some hroot =>
      exact Node.isSome_eq_of_rel (hroot.descend path.rest)

theorem withRoot (htwin : forest.Twin other) {root : Node} (hroot : root.Distinct) :
    (forest.withRoot root).Twin (other.withRoot root) := by
  have hself : root.asRoot.Twin root.asRoot := .self (hroot.reroot _)
  rw [Forest.Twin] at htwin ⊢
  rw [Forest.withRoot, Forest.withRoot]
  dsimp only
  generalize forest.roots = roots, other.roots = others at htwin
  induction htwin with
  | nil => exact .cons hself .nil
  | cons hfirst hrest ih =>
      rw [replaceRoot, replaceRoot, hfirst.name_eq]
      split
      next => exact .cons hself hrest
      next => exact .cons hfirst ih

theorem withoutRoot (htwin : forest.Twin other) (name : String) :
    (forest.withoutRoot name).Twin (other.withoutRoot name) := by
  rw [Forest.Twin] at htwin ⊢
  rw [Forest.withoutRoot, Forest.withoutRoot]
  dsimp only
  generalize forest.roots = roots, other.roots = others at htwin
  induction htwin with
  | nil => exact .nil
  | cons hfirst _ ih =>
      rw [List.filter_cons, List.filter_cons, hfirst.name_eq]
      split
      next => exact .cons hfirst ih
      next => exact ih

theorem same_of_same (htwin : forest.Twin other) (hnext : next.Twin next')
    (hsame : next.same forest = true) : next'.same other = true := by
  rw [Forest.same, sameRoots_iff] at hsame ⊢
  rw [Forest.Twin] at htwin hnext
  generalize forest.roots = roots, other.roots = roots', next.roots = nexts,
    next'.roots = nexts' at htwin hnext hsame
  induction hsame generalizing roots' nexts' with
  | nil =>
      cases htwin
      cases hnext
      exact .nil
  | cons hroot _ ih =>
      cases htwin with
      | cons hfirst htwin =>
          cases hnext with
          | cons hother hnext =>
              refine .cons ?_ (ih _ _ htwin hnext)
              refine Node.same_of_alike hother.other_distinct hfirst.other_distinct ?_
              have halike := Node.alike_of_same hother.distinct hfirst.distinct hroot
              exact hother.symm.alike.trans (halike.trans hfirst.alike)

/-- Of twins the same are twins of the same. -/
theorem same_eq (htwin : forest.Twin other) (hnext : next.Twin next') :
    next.same forest = next'.same other := by
  rw [Bool.eq_iff_iff]
  exact ⟨htwin.same_of_same hnext, htwin.symm.same_of_same hnext.symm⟩

end Twin

end Forest

end TreePass
