import TreePass.Proofs.Node.Twin
import TreePass.Proofs.Sorted

/-!
# Canonical forms

Equality of nodes looks up the entries of one map in the other, and a hash reads the
entries in the order of their keys. Both see of a node what is left of it when all
paths are erased and all maps are sorted: its canonical form. Equal nodes are those of
one canonical form, and to move entries or to put a node at another path makes no
difference to it. The same is true of forests, whose roots are compared one by one.
-/

namespace TreePass

namespace Node

variable {node other : Node}

/-- What is made of the own data of a node, and of what has been made of its children, is
the same for alike nodes. -/
theorem Alike.congr {β : Type} {f : Node → β}
    (hstep : ∀ node other : Node, node.Distinct → other.Distinct → node.face = other.face →
      (node.children.map fun entry => (entry.1, f entry.2)).Perm
        (other.children.map fun entry => (entry.1, f entry.2)) → f node = f other)
    (halike : node.Alike other) (hnode : node.Distinct) (hother : other.Distinct) :
    f node = f other := by
  induction node using Node.induction generalizing other with
  | step node ih =>
      refine hstep node other hnode hother halike.top ?_
      refine Keyed.map_value_perm hnode.children hother.children fun key => ?_
      -- Under each key there are no children, or alike ones, of which the same is made.
      have hchild := rel_of_mem (S := fun child child' => f child = f child') (halike.child key)
        fun child hfound child' hfound' halike =>
          ih _ (Keyed.mem_of_get? hfound) halike (hnode.child (Keyed.mem_of_get? hfound))
            (hother.child (Keyed.mem_of_get? hfound'))
      rw [child?, child?] at hchild
      generalize Keyed.get? key node.children = found, Keyed.get? key other.children = found'
        at hchild ⊢
      cases hchild with
      | none => rfl
      | some heq => exact congrArg some heq

/-! ## Canonical forms of nodes -/

theorem members_canonical (node : Node) :
    node.canonical.members = Keyed.sorted node.members := by
  cases node
  rw [canonical]

theorem children_canonical (node : Node) : node.canonical.children =
    Keyed.sorted (node.children.map fun entry => (entry.1, entry.2.canonical)) := by
  have hchildren (children : List (String × Node)) : canonicalChildren children =
      children.map fun entry => (entry.1, entry.2.canonical) := by
    induction children with
    | nil => rfl
    | cons entry rest ih => rw [canonicalChildren, List.map_cons, ih]
  cases node
  rw [canonical, hchildren]

theorem child?_canonical (hnode : node.Distinct) (key : String) :
    node.canonical.child? key = (node.child? key).map canonical := by
  rw [child?, children_canonical, Keyed.get?_sorted (Keyed.distinct_map_value _ hnode.children),
    Keyed.get?_map_value, child?]

/-- A canonical form is alike to what it is the form of. -/
theorem alike_canonical (hnode : node.Distinct) : node.canonical.Alike node := by
  induction node using Node.induction with
  | step node ih =>
      refine .of_children ?_ fun key => ?_
      · have hmembers := Multiset.coe_eq_coe.mpr (Keyed.sorted_perm hnode.members)
        cases node
        simp only [canonical, face, hmembers]
      · rw [child?_canonical hnode]
        cases hfound : node.child? key with
        | none => exact .none
        | some child =>
            have hmem := Keyed.mem_of_get? hfound
            exact .some (ih _ hmem (hnode.child hmem))

/-- At every depth the maps are in ascending order and no node says where it is. -/
def Sorted (node : Node) : Prop :=
  ∀ inner ∈ node.preorder, (Keyed.keys inner.members).Pairwise (· < ·) ∧
    (Keyed.keys inner.children).Pairwise (· < ·) ∧ inner.path = .single inner.name

theorem sorted_canonical (hnode : node.Distinct) : node.canonical.Sorted := by
  induction node using Node.induction with
  | step node ih =>
      intro inner hinner
      rcases mem_preorder_iff.mp hinner with rfl | ⟨entry, hentry, hinner⟩
      · rw [members_canonical, children_canonical]
        refine ⟨Keyed.pairwise_sorted _, Keyed.pairwise_sorted _, ?_⟩
        cases node
        rfl
      · have hdistinct := Keyed.distinct_map_value (fun entry => entry.2.canonical) hnode.children
        rw [children_canonical, (Keyed.sorted_perm hdistinct).mem_iff] at hentry
        obtain ⟨child, hchild, rfl⟩ := List.mem_map.mp hentry
        exact ih child hchild (hnode.child hchild) inner hinner

theorem Alike.canonical_eq (halike : node.Alike other) (hnode : node.Distinct)
    (hother : other.Distinct) : node.canonical = other.canonical := by
  refine halike.congr (fun node other hnode _ hface hchildren => ?_) hnode hother
  have hsorted := Keyed.sorted_eq_of_perm (Keyed.distinct_map_value _ hnode.children) hchildren
  rw [← children_canonical, ← children_canonical] at hsorted
  obtain ⟨hname, hdocumentation, hattributes, hmembers⟩ := face_eq_iff.mp hface
  replace hmembers := Keyed.sorted_eq_of_perm hnode.members hmembers
  cases node
  cases other
  simp only [canonical] at hsorted hname hdocumentation hattributes hmembers ⊢
  rw [hname, hdocumentation, hattributes, hmembers, hsorted]

/-- Nodes of one canonical form are the nodes that are alike. -/
theorem canonical_eq_iff_alike (hnode : node.Distinct) (hother : other.Distinct) :
    node.canonical = other.canonical ↔ node.Alike other := by
  constructor
  · intro heq
    have halike := alike_canonical hnode
    rw [heq] at halike
    exact halike.symm.trans (alike_canonical hother)
  · exact fun halike => halike.canonical_eq hnode hother

/-! ## What a hash reads -/

theorem fingerprintMap_eq {entries others : List (String × List Datum)}
    (hentries : Keyed.Distinct entries) (hperm : entries.Perm others) :
    fingerprintMap entries = fingerprintMap others := by
  unfold fingerprintMap
  rw [hperm.length_eq, Keyed.sorted_eq_of_perm hentries hperm]

theorem fingerprintChildren_eq (children : List (String × Node)) :
    fingerprintChildren children = children.map fun entry => (entry.1, entry.2.fingerprint) := by
  induction children with
  | nil => rfl
  | cons entry rest ih => rw [fingerprintChildren, List.map_cons, ih]

/-- Of alike nodes a hash reads the same. -/
theorem Alike.fingerprint_eq (halike : node.Alike other) (hnode : node.Distinct)
    (hother : other.Distinct) : node.fingerprint = other.fingerprint := by
  refine halike.congr (fun node other hnode _ hface hchildren => ?_) hnode hother
  replace hchildren := fingerprintMap_eq (Keyed.distinct_map_value _ hnode.children) hchildren
  obtain ⟨hname, hdocumentation, hattributes, hmembers⟩ := face_eq_iff.mp hface
  replace hmembers := fingerprintMap_eq (Keyed.distinct_map_value _ hnode.members)
    (hmembers.map fun entry => (entry.1, entry.2.fingerprint))
  cases node
  cases other
  simp only at hname hdocumentation hattributes hmembers hchildren
  simp only [fingerprint, fingerprintChildren_eq, hname, hdocumentation, hattributes, hmembers,
    hchildren]

/-! ## Moving entries and paths -/

/-- What comes of a node when entries of its maps are moved and it is put at another path,
again and again, at any depth. -/
inductive Rearranged : Node → Node → Prop where
  | refl (node : Node) : Rearranged node node
  | members {node : Node} {members : List (String × Member)} (perm : node.members.Perm members) :
      Rearranged node { node with members }
  | children {node : Node} {children : List (String × Node)}
      (perm : node.children.Perm children) : Rearranged node { node with children }
  | child {node child after : Node} {key : String} (found : node.child? key = some child)
      (inner : Rearranged child after) : Rearranged node (node.withChildAt key after)
  | reroot (node : Node) (path : Path) : Rearranged node (node.reroot path)
  | trans {node between after : Node} (first : Rearranged node between)
      (second : Rearranged between after) : Rearranged node after

/-- Moving entries and paths leaves a node alike, and no key comes to occur twice. -/
theorem Rearranged.alike (hmoved : node.Rearranged other) (hnode : node.Distinct) :
    node.Alike other ∧ other.Distinct := by
  induction hmoved with
  | refl node => exact ⟨.refl node, hnode⟩
  | @members node members hperm =>
      refine ⟨.of_child?_eq ?_ fun _ => rfl, hnode.of_perm hperm .rfl⟩
      simp only [face, Multiset.coe_eq_coe.mpr hperm]
  | @children node children hperm =>
      have hafter : Distinct { node with children } := hnode.of_perm .rfl hperm
      refine ⟨.of_child?_eq rfl fun key => ?_, hafter⟩
      exact (Keyed.perm_iff_get? hnode.children hafter.children).mp hperm key
  | @child node child after key hfound _ ih =>
      obtain ⟨halike, hafter⟩ := ih (hnode.child (Keyed.mem_of_get? hfound))
      constructor
      · refine .of_children rfl fun other => ?_
        rw [child?_withChildAt]
        split
        next hkey =>
          rw [← hkey, hfound]
          exact .some halike
        next => exact rel_refl (fun inner => .refl inner) (node.child? other)
      · refine distinct_iff.mpr ⟨⟨hnode.members, Keyed.distinct_put hnode.children⟩, ?_⟩
        intro entry hentry
        rcases Keyed.mem_put hentry with rfl | hold
        · exact hafter
        · exact hnode.child hold
  | reroot node path => exact ⟨(alike_reroot path node).symm, hnode.reroot path⟩
  | trans _ _ ih ih' =>
      obtain ⟨halike, hbetween⟩ := ih hnode
      obtain ⟨halike', hafter⟩ := ih' hbetween
      exact ⟨halike.trans halike', hafter⟩

theorem same_iff_canonical (hnode : node.Distinct) (hother : other.Distinct) :
    node.same other = true ↔ node.canonical = other.canonical :=
  (same_iff_alike hnode hother).trans (canonical_eq_iff_alike hnode hother).symm

end Node

/-! ## Forests -/

theorem map_eq_map_iff_forall₂ {α β : Type} {f : α → β} {items others : List α} :
    items.map f = others.map f ↔
      List.Forall₂ (fun item other => f item = f other) items others := by
  rw [← List.forall₂_map_right_iff, ← List.forall₂_map_left_iff, List.forall₂_eq_eq_eq]

namespace Forest

variable {forest other : Forest}

/-- The canonical forms of the roots, in the order of the roots. -/
def canonical (forest : Forest) : List Node :=
  forest.roots.map Node.canonical

/-- What comes of a forest when each root is rearranged in its place. -/
def Rearranged (forest other : Forest) : Prop :=
  List.Forall₂ Node.Rearranged forest.roots other.roots

theorem Distinct.sorted_canonical (hforest : forest.Distinct) :
    ∀ root ∈ forest.canonical, root.Sorted :=
  List.forall_mem_map.mpr fun root hroot => Node.sorted_canonical (hforest root hroot)

theorem same_iff_canonical (hforest : forest.Distinct) (hother : other.Distinct) :
    forest.same other = true ↔ forest.canonical = other.canonical := by
  have hiff {root root' : Node} (hroot : root ∈ forest.roots) (hroot' : root' ∈ other.roots) :
      root.Alike root' ↔ root.canonical = root'.canonical :=
    (Node.canonical_eq_iff_alike (hforest root hroot) (hother root' hroot')).symm
  rw [same_iff_alike hforest hother, canonical, canonical, map_eq_map_iff_forall₂]
  constructor
  · exact forall₂_of_mem fun _ hroot _ hroot' => (hiff hroot hroot').mp
  · exact forall₂_of_mem fun _ hroot _ hroot' => (hiff hroot hroot').mpr

theorem Rearranged.alike (hmoved : forest.Rearranged other) (hforest : forest.Distinct) :
    List.Forall₂ Node.Alike forest.roots other.roots ∧ other.Distinct := by
  rw [Rearranged] at hmoved
  rw [Distinct] at hforest ⊢
  generalize forest.roots = roots, other.roots = others at hmoved hforest
  induction hmoved with
  | nil => exact ⟨.nil, by simp⟩
  | cons hroot _ ih =>
      obtain ⟨hfirst, hrest⟩ := List.forall_mem_cons.mp hforest
      obtain ⟨halike, hdistinct⟩ := hroot.alike hfirst
      obtain ⟨halikes, hdistincts⟩ := ih hrest
      exact ⟨.cons halike halikes, List.forall_mem_cons.mpr ⟨hdistinct, hdistincts⟩⟩

/-- Of forests that are the same a hash reads the same. -/
theorem fingerprint_eq_of_same (hforest : forest.Distinct) (hother : other.Distinct)
    (hsame : forest.same other = true) : forest.fingerprint = other.fingerprint := by
  have halike := (same_iff_alike hforest hother).mp hsame
  have hread : forest.roots.map Node.fingerprint = other.roots.map Node.fingerprint := by
    refine map_eq_map_iff_forall₂.mpr (forall₂_of_mem ?_ halike)
    intro root hroot root' hroot' halike
    exact halike.fingerprint_eq (hforest root hroot) (hother root' hroot')
  unfold fingerprint
  rw [halike.length_eq, List.flatMap_def, List.flatMap_def, hread]

end Forest

/-! ## Canonical equality -/

/-- An equality that compares canonical forms, which are in order: it is an equivalence, it does
not see that something is rearranged, and of what is equal a hash reads the same. -/
structure CanonicalEquality {α φ : Type} (same : α → α → Bool) (Valid : α → Prop)
    (Rearranged : α → α → Prop) (canonical : α → φ) (Sorted : φ → Prop)
    (fingerprint : α → List Datum) : Prop where
  sorted : ∀ item, Valid item → Sorted (canonical item)
  same_iff : ∀ item other, Valid item → Valid other →
    (same item other = true ↔ canonical item = canonical other)
  equivalence : Equivalence fun item other : { item // Valid item } =>
    same item.1 other.1 = true
  same_rearranged : ∀ item other moved moved', Valid item → Valid other →
    Rearranged item moved → Rearranged other moved' → same moved moved' = same item other
  fingerprint_eq : ∀ item other, Valid item → Valid other → same item other = true →
    fingerprint item = fingerprint other

namespace CanonicalEquality

variable {α φ : Type} {same : α → α → Bool} {Valid : α → Prop} {Rearranged : α → α → Prop}
  {canonical : α → φ} {Sorted : φ → Prop} {fingerprint : α → List Datum}

/-- To compare canonical forms is an equivalence whatever they are. -/
theorem intro (hsorted : ∀ item, Valid item → Sorted (canonical item))
    (hsame : ∀ item other, Valid item → Valid other →
      (same item other = true ↔ canonical item = canonical other))
    (hmoved : ∀ item moved, Valid item → Rearranged item moved →
      Valid moved ∧ same item moved = true)
    (hread : ∀ item other, Valid item → Valid other → same item other = true →
      fingerprint item = fingerprint other) :
    CanonicalEquality same Valid Rearranged canonical Sorted fingerprint where
  sorted := hsorted
  same_iff := hsame
  equivalence := by
    have hiff : ∀ item other : { item // Valid item },
        same item.1 other.1 = true ↔ canonical item.1 = canonical other.1 :=
      fun item other => hsame item.1 other.1 item.2 other.2
    simp only [hiff]
    exact ⟨fun _ => rfl, Eq.symm, Eq.trans⟩
  same_rearranged := by
    intro item other moved moved' hitem hother hfirst hsecond
    obtain ⟨hvalid, heq⟩ := hmoved item moved hitem hfirst
    obtain ⟨hvalid', heq'⟩ := hmoved other moved' hother hsecond
    rw [hsame _ _ hitem hvalid] at heq
    rw [hsame _ _ hother hvalid'] at heq'
    rw [Bool.eq_iff_iff, hsame _ _ hvalid hvalid', hsame _ _ hitem hother, heq, heq']
  fingerprint_eq := hread

end CanonicalEquality

/-- Equality compares canonical forms, of nodes and of forests whose maps hold no key twice.
The maps of a canonical form are sorted at every depth, and what a hash reads goes with
equality. -/
theorem same_canonical :
    CanonicalEquality Node.same Node.Distinct Node.Rearranged Node.canonical Node.Sorted
      Node.fingerprint ∧
    CanonicalEquality Forest.same Forest.Distinct Forest.Rearranged Forest.canonical
      (fun roots => ∀ root ∈ roots, root.Sorted) Forest.fingerprint := by
  refine ⟨.intro ?sortedNodes ?nodes ?movedNodes ?readNodes,
    .intro ?sortedForests ?forests ?movedForests ?readForests⟩
  case sortedNodes => exact fun _ => Node.sorted_canonical
  case sortedForests => exact fun _ hforest => hforest.sorted_canonical
  case nodes => exact fun _ _ => Node.same_iff_canonical
  case movedNodes =>
    intro node moved hnode hmoved
    obtain ⟨halike, hdistinct⟩ := hmoved.alike hnode
    exact ⟨hdistinct, Node.same_of_alike hnode hdistinct halike⟩
  case readNodes =>
    intro node other hnode hother hsame
    exact (Node.alike_of_same hnode hother hsame).fingerprint_eq hnode hother
  case forests => exact fun _ _ => Forest.same_iff_canonical
  case movedForests =>
    intro forest moved hforest hmoved
    obtain ⟨halike, hdistinct⟩ := hmoved.alike hforest
    exact ⟨hdistinct, (Forest.same_iff_alike hforest hdistinct).mpr halike⟩
  case readForests => exact fun _ _ => Forest.fingerprint_eq_of_same

/-- A root with two members and two children. -/
def drawer : Node :=
  { Node.named "a" with
    members := [("m", .named "p"), ("n", .named "q")]
    children := [("x", .named "u"), ("y", (Node.named "v").withChild (.named "w"))] }

/-- The drawer under another node, with members and children the other way round. -/
def shuffled : Node :=
  { drawer.reroot ⟨"r", ["a"]⟩ with
    members := drawer.members.reverse
    children := (drawer.reroot ⟨"r", ["a"]⟩).children.reverse }

theorem same_canonical_shuffled :
    drawer.Distinct ∧ shuffled.Distinct ∧ drawer.Rearranged shuffled ∧
    drawer.same shuffled = true ∧ drawer.canonical = shuffled.canonical ∧
    drawer.fingerprint = shuffled.fingerprint ∧
    Forest.canonical ⟨[drawer, .named "b"]⟩ ≠ Forest.canonical ⟨[.named "b", shuffled]⟩ := by
  have hdrawer : drawer.Distinct := by decide
  have hshuffled : shuffled.Distinct := by decide
  have hmoved : drawer.Rearranged shuffled := by
    refine (Node.Rearranged.reroot drawer ⟨"r", ["a"]⟩).trans ?_
    exact (Node.Rearranged.members (List.reverse_perm _).symm).trans
      (.children (List.reverse_perm _).symm)
  obtain ⟨hnodes, hforests⟩ := same_canonical
  have hsame : drawer.same shuffled = true :=
    (hnodes.same_rearranged _ _ _ _ hdrawer hdrawer (.refl drawer) hmoved).trans
      (hnodes.equivalence.refl ⟨drawer, hdrawer⟩)
  refine ⟨hdrawer, hshuffled, hmoved, hsame, (hnodes.same_iff _ _ hdrawer hshuffled).mp hsame,
    hnodes.fingerprint_eq _ _ hdrawer hshuffled hsame, fun hcanonical => ?_⟩
  have hswapped := (hforests.same_iff _ _ (by decide) (by decide)).mpr hcanonical
  cases hswapped

end TreePass
