import TreePass.Proofs.Node.Maps
import TreePass.Staging.Basic

/-!
# What is staged after an edit

A staging area is read by looking up paths. Each edit of the registry changes the
answers in one way that can be said without the order of the registry: at one
path, at and below one path, or by moving what is below one path to below
another. The registry itself never comes to hold a path twice.
-/

namespace TreePass.Staging

variable {staging : Staging} {path : Path}

theorem contains_eq_isSome (staging : Staging) (path : Path) :
    staging.contains path = (staging.entry? path).isSome := rfl

/-- The names that are listed below a parent, or the roots. -/
def listedUnder (staging : Staging) : Option Path → List String
  | none => staging.roots
  | some above => ((staging.entry? above).map Entry.children).getD []

/-! ## Edits at one path -/

theorem updateEntry_congr {f g : Entry → Entry}
    (hfound : ∀ entry ∈ staging.entry? path, f entry = g entry) :
    staging.updateEntry path f = staging.updateEntry path g :=
  congrArg (mk staging.roots) (Keyed.update_congr hfound)

/-- To give back what is found at a path changes nothing. -/
theorem updateEntry_eq_self {f : Entry → Entry}
    (hfound : ∀ entry ∈ staging.entry? path, f entry = entry) :
    staging.updateEntry path f = staging :=
  (updateEntry_congr (g := id) hfound).trans
    (congrArg (mk staging.roots) (Keyed.update_id path staging.entries))

theorem entry?_updateEntry (staging : Staging) (path other : Path) (f : Entry → Entry) :
    entry? (staging.updateEntry path f) other =
      if path = other then (staging.entry? other).map f else staging.entry? other := by
  rw [updateEntry, entry?]
  split
  next heq => rw [heq, Keyed.get?_update_self, entry?]
  next hne => rw [Keyed.get?_update_of_ne hne, entry?]

theorem entry?_ensureEntry (staging : Staging) (path other : Path) (name : String) :
    entry? (staging.ensureEntry path name) other =
      (staging.entry? other).or (if path = other then some (Entry.named name) else none) := by
  rw [ensureEntry, contains_eq_isSome]
  cases hentry : staging.entry? path with
  | some entry =>
      rw [Option.isSome_some, if_pos rfl]
      split
      next heq => rw [← heq, hentry, Option.some_or]
      next => rw [Option.or_none]
  | none =>
      rw [Option.isSome_none, if_neg Bool.false_ne_true, entry?, Keyed.get?_put]
      split
      next heq => rw [← heq, hentry, Option.none_or]
      next => rw [Option.or_none, entry?]

theorem distinct_ensureEntry (hdistinct : Keyed.Distinct staging.entries) (path : Path)
    (name : String) : Keyed.Distinct (staging.ensureEntry path name).entries := by
  rw [ensureEntry]
  split
  · exact hdistinct
  · exact Keyed.distinct_put hdistinct

/-! ## Pruning -/

theorem entry?_prune (staging : Staging) (path other : Path) :
    entry? (staging.prune path).2 other =
      if other.startsWith path then none else staging.entry? other := by
  have hfilter := Keyed.get?_filter (fun key => !Path.startsWith key path) other staging.entries
  rw [prune, entry?, hfilter, entry?]
  cases other.startsWith path <;> rfl

theorem distinct_prune (hdistinct : Keyed.Distinct staging.entries) (path : Path) :
    Keyed.Distinct (staging.prune path).2.entries :=
  Keyed.distinct_filter _ hdistinct

theorem prune_fst_pos_iff {path : Path} :
    0 < (staging.prune path).1 ↔
      ∃ other ∈ Keyed.keys staging.entries, other.startsWith path = true := by
  have hfewer := List.length_filter_lt_length_iff_exists
    (p := fun entry : Path × Entry => !entry.1.startsWith path) (l := staging.entries)
  simp only [prune, Nat.sub_pos_iff_lt, hfewer, Keyed.keys]
  simp

theorem prune_eq_self {path : Path}
    (hnone : ∀ other ∈ Keyed.keys staging.entries, ¬ other.startsWith path = true) :
    (staging.prune path).2 = staging := by
  have hall : staging.entries.filter (fun entry => !entry.1.startsWith path) = staging.entries := by
    apply List.filter_eq_self.mpr
    intro entry hentry
    simpa using hnone entry.1 (List.mem_map_of_mem hentry)
  simp only [prune, hall]

theorem mem_prune_entries {entry : Path × Entry} :
    entry ∈ (staging.prune path).2.entries ↔
      entry ∈ staging.entries ∧ ¬ entry.1.startsWith path = true := by
  simp [prune]

theorem keys_prune (staging : Staging) (path : Path) :
    Keyed.keys (staging.prune path).2.entries =
      (Keyed.keys staging.entries).filter fun other => !other.startsWith path := by
  simp only [prune, Keyed.keys, List.filter_map]
  rfl

/-! ## Registering nodes -/

theorem registerNode_eq (path : Path) (node : Node) (entries : List (Path × Entry)) :
    registerNode path node entries =
      Keyed.put path (Entry.ofNode node) (registerChildren path node.children entries) := by
  cases node
  rw [registerNode]

theorem get?_registerNode_off {other : Path} (node : Node) (path : Path)
    (hoff : ¬ other.startsWith path = true) (entries : List (Path × Entry)) :
    Keyed.get? other (registerNode path node entries) = Keyed.get? other entries := by
  induction node using Node.induction generalizing path entries with
  | step node ih =>
      have hne : path ≠ other := fun heq => hoff (heq ▸ path.startsWith_refl)
      rw [registerNode_eq, Keyed.get?_put, if_neg hne]
      generalize node.children = children at ih
      induction children generalizing entries with
      | nil => rw [registerChildren]
      | cons child rest ihrest =>
          have hbelow : ¬ other.startsWith (path.child child.1) = true :=
            fun hstarts => hoff (Path.startsWith_trans hstarts (path.child_startsWith _))
          rw [registerChildren,
            ihrest _ fun entry hentry => ih entry (List.mem_cons_of_mem _ hentry),
            ih child List.mem_cons_self _ hbelow]

/-- Children under different keys do not touch what is below each other. -/
theorem get?_registerChildren {path : Path} {children : List (String × Node)}
    (hdistinct : Keyed.Distinct children) {names : List String} {key : String}
    (hchild : ∀ entry ∈ children, ∀ entries,
      Keyed.get? ((path.child key).extend names) (registerNode (path.child key) entry.2 entries) =
        ((entry.2.descend names).map Entry.ofNode).or
          (Keyed.get? ((path.child key).extend names) entries))
    (entries : List (Path × Entry)) :
    Keyed.get? ((path.child key).extend names) (registerChildren path children entries) =
      (((Keyed.get? key children).bind (·.descend names)).map Entry.ofNode).or
        (Keyed.get? ((path.child key).extend names) entries) := by
  induction children generalizing entries with
  | nil => rw [registerChildren, Keyed.get?_nil, Option.bind_none, Option.map_none, Option.none_or]
  | cons child rest ih =>
      obtain ⟨first, node⟩ := child
      obtain ⟨hnew, hrest⟩ := List.nodup_cons.mp hdistinct
      have hothers := ih hrest fun entry hentry => hchild entry (List.mem_cons_of_mem _ hentry)
      rw [registerChildren, hothers, Keyed.get?_cons]
      by_cases hkey : first = key
      · subst hkey
        rw [Keyed.get?_eq_none_iff.mpr hnew, if_pos rfl, Option.bind_none, Option.map_none,
          Option.none_or, Option.bind_some]
        exact hchild (first, node) List.mem_cons_self entries
      · have hoff : ¬ ((path.child key).extend names).startsWith (path.child first) = true :=
          fun hstarts => hkey (Path.child_name_eq hstarts (Path.extend_startsWith _ _))
        rw [if_neg hkey, get?_registerNode_off node _ hoff]

/-- At and below the path of a registered node one finds what is in the node, and
besides that what was there. -/
theorem get?_registerNode {node : Node} (hnode : node.Distinct) (path : Path)
    (names : List String) (entries : List (Path × Entry)) :
    Keyed.get? (path.extend names) (registerNode path node entries) =
      ((node.descend names).map Entry.ofNode).or (Keyed.get? (path.extend names) entries) := by
  induction node using Node.induction generalizing path names entries with
  | step node ih =>
      rw [registerNode_eq, Keyed.get?_put]
      cases names with
      | nil =>
          rw [Path.extend_nil, if_pos rfl]
          rfl
      | cons key names =>
          have hne : path ≠ path.extend (key :: names) := by
            intro heq
            have hnil : path.extend [] = path.extend (key :: names) := by
              rwa [Path.extend_nil]
            exact absurd (Path.extend_inj.mp hnil) (List.cons_ne_nil _ _).symm
          rw [if_neg hne, ← Path.extend_child]
          exact get?_registerChildren hnode.children
            (fun entry hentry => ih entry hentry (hnode.child hentry) _ _) entries

theorem distinct_registerNode (node : Node) (path : Path) {entries : List (Path × Entry)}
    (hdistinct : Keyed.Distinct entries) : Keyed.Distinct (registerNode path node entries) := by
  induction node using Node.induction generalizing path entries with
  | step node ih =>
      rw [registerNode_eq]
      refine Keyed.distinct_put ?_
      generalize node.children = children at ih
      induction children generalizing entries with
      | nil => rwa [registerChildren]
      | cons child rest ihrest =>
          rw [registerChildren]
          exact ihrest (ih child List.mem_cons_self _ hdistinct)
            fun entry hentry => ih entry (List.mem_cons_of_mem _ hentry)

/-- Staging a node leaves below its path what is in the node, and nothing else. -/
theorem entry?_stageNode {node : Node} (hnode : node.Distinct) (staging : Staging) (path : Path)
    (names : List String) :
    entry? (staging.stageNode path node) (path.extend names) =
      (node.descend names).map Entry.ofNode := by
  have hpruned := entry?_prune staging path (path.extend names)
  rw [if_pos (path.extend_startsWith names)] at hpruned
  exact (get?_registerNode hnode path names _).trans (by rw [← entry?, hpruned, Option.or_none])

theorem entry?_stageNode_off {other : Path} (hoff : ¬ other.startsWith path = true)
    (staging : Staging) (node : Node) :
    entry? (staging.stageNode path node) other = staging.entry? other := by
  have hpruned := entry?_prune staging path other
  rw [if_neg hoff] at hpruned
  exact (get?_registerNode_off node path hoff _).trans hpruned

/-! ## Moving entries -/

/-- Where a path lies after what is below `old` has moved to below `new`. -/
def moved (old new path : Path) : Path :=
  (path.rebase old new).getD path

@[simp] theorem moved_extend (old new : Path) (names : List String) :
    moved old new (old.extend names) = new.extend names := by
  rw [moved, Path.rebase_extend, Option.getD_some]

theorem moved_of_apart {old path : Path} (new : Path) (hapart : ¬ path.startsWith old = true) :
    moved old new path = path := by
  rw [moved, Path.rebase_of_apart new hapart, Option.getD_none]

@[simp] theorem moved_self (old new : Path) : moved old new old = new := by
  have hextend := moved_extend old new []
  rwa [Path.extend_nil, Path.extend_nil] at hextend

/-- What has moved to where nothing was finds its way back. -/
theorem moved_back (old : Path) {new path : Path} (hpath : ¬ path.startsWith new = true) :
    moved new old (moved old new path) = path := by
  by_cases hbelow : path.startsWith old = true
  · obtain ⟨names, rfl⟩ := Path.startsWith_iff_extend.mp hbelow
    rw [moved_extend, moved_extend]
  · rw [moved_of_apart new hbelow, moved_of_apart old hpath]

/-- Paths stay different when they move to where none of them is. -/
theorem moved_inj {old new path other : Path} (hpath : ¬ path.startsWith new = true)
    (hother : ¬ other.startsWith new = true)
    (heq : moved old new path = moved old new other) : path = other := by
  rw [← moved_back old hpath, heq, moved_back old hother]

/-- Moving entries to where there are none merges none of them and keeps their
order. -/
theorem rekey_entries {new : Path} (hdistinct : Keyed.Distinct staging.entries)
    (hfree : ∀ path ∈ Keyed.keys staging.entries, ¬ path.startsWith new = true) (old : Path) :
    (staging.rekey old new).entries =
      staging.entries.map fun entry => (moved old new entry.1, entry.2) := by
  refine Keyed.ofList_of_distinct ?_
  rw [Keyed.Distinct, Keyed.keys, List.map_map]
  have hmoved : staging.entries.map (Prod.fst ∘ fun entry => (moved old new entry.1, entry.2)) =
      (Keyed.keys staging.entries).map (moved old new) := by
    rw [Keyed.keys, List.map_map]
    rfl
  refine hmoved ▸ List.Nodup.map_on (fun path hpath other hother heq => ?_) hdistinct
  exact moved_inj (hfree path hpath) (hfree other hother) heq

theorem distinct_rekey (staging : Staging) (old new : Path) :
    Keyed.Distinct (staging.rekey old new).entries :=
  Keyed.distinct_ofList _

end TreePass.Staging
