import TreePass.Proofs.Editing.Simulation
import TreePass.Proofs.Staging.Named

/-!
# Staging areas that can be reached

A staging area starts empty or from a forest and is changed by edits with any
arguments, sensible or not. Whatever the edits, no root is declared twice, no child is
listed twice by its parent, and every declared root has an entry. Gaps are left to the
children: a child may be listed without an entry, or staged without being listed.
-/

namespace TreePass

/-- A node that is to be staged holds no key twice. -/
def Edit.Distinct : Edit → Prop
  | .stageNode _ node => node.Distinct
  | _ => True

namespace Staging

open Rewriter (placeUnder)

/-- The staging areas that can be reached. Besides the edits, a child may be listed
without being staged, and an entry may be replaced as a whole by another one that
lists nobody twice, which all entries do that one can come by. -/
inductive Reachable : Staging → Prop where
  | empty : Reachable .empty
  | ofForest {forest : Forest} (distinct : forest.Distinct) : Reachable (.ofForest forest)
  | edit {staging : Staging} (before : Reachable staging) (edit : Edit)
      (distinct : edit.Distinct) : Reachable (edit.onStaging staging)
  | declareChild {staging : Staging} (before : Reachable staging) (parent : Path)
      (name : String) : Reachable (staging.declareChild parent name).2
  | replaceEntry {staging : Staging} (before : Reachable staging) (path : Path) {entry : Entry}
      (nodup : entry.children.Nodup) : Reachable (staging.updateEntry path fun _ => entry)

/-- Nothing is registered, declared or listed twice. -/
structure Tidy (staging : Staging) : Prop where
  distinct : Keyed.Distinct staging.entries
  roots_nodup : staging.roots.Nodup
  children_nodup : ∀ entry ∈ staging.entries, entry.2.children.Nodup

/-- A tidy staging area in which every declared root has an entry. -/
structure Sound (staging : Staging) : Prop extends staging.Tidy where
  root_staged : ∀ root ∈ staging.roots, staging.contains (.single root) = true

variable {staging : Staging}

/-! ## Lists of names -/

theorem mem_declare {name other : String} {names : List String}
    (hmem : other ∈ declare name names) : other = name ∨ other ∈ names := by
  rw [declare] at hmem
  split at hmem
  next => exact .inr hmem
  next => exact (List.mem_append.mp hmem).symm.imp_left List.mem_singleton.mp

/-! ## What keeps a staging area tidy -/

theorem children_nodup_registerNode {node : Node} (hnode : node.Distinct) (path : Path)
    {entries : List (Path × Entry)} (hentries : ∀ entry ∈ entries, entry.2.children.Nodup) :
    ∀ entry ∈ registerNode path node entries, entry.2.children.Nodup := by
  induction node using Node.induction generalizing path entries with
  | step node ih =>
      have hbelow : ∀ entry ∈ registerChildren path node.children entries,
          entry.2.children.Nodup := by
        have hchildren : ∀ child ∈ node.children, child.2.Distinct := fun _ => hnode.child
        generalize node.children = children at ih hchildren
        induction children generalizing entries with
        | nil =>
            rw [registerChildren]
            exact hentries
        | cons child rest ihrest =>
            obtain ⟨hchild, hrest⟩ := List.forall_mem_cons.mp hchildren
            rw [registerChildren]
            exact ihrest (ih child List.mem_cons_self hchild _ hentries)
              (fun entry hentry => ih entry (List.mem_cons_of_mem _ hentry)) hrest
      intro entry hentry
      rw [registerNode_eq] at hentry
      rcases Keyed.mem_put hentry with rfl | hold
      · exact hnode.children
      · exact hbelow entry hold

namespace Tidy

theorem empty : Tidy .empty where
  distinct := List.nodup_nil
  roots_nodup := List.nodup_nil
  children_nodup := by simp [Staging.empty]

theorem updateEntry (htidy : staging.Tidy) (path : Path) {f : Entry → Entry}
    (hf : ∀ entry : Entry, entry.children.Nodup → (f entry).children.Nodup) :
    (staging.updateEntry path f).Tidy where
  distinct := Keyed.distinct_update path f htidy.distinct
  roots_nodup := htidy.roots_nodup
  children_nodup := by
    intro entry hentry
    rcases Keyed.mem_update hentry with hold | ⟨value, hvalue, rfl⟩
    · exact htidy.children_nodup entry hold
    · exact hf value (htidy.children_nodup _ hvalue)

theorem relist (htidy : staging.Tidy) (parent : Option Path) {g : List String → List String}
    (hg : ∀ names : List String, names.Nodup → (g names).Nodup) :
    (staging.relist parent g).Tidy := by
  cases parent with
  | none => exact ⟨htidy.distinct, hg _ htidy.roots_nodup, htidy.children_nodup⟩
  | some above => exact htidy.updateEntry above fun entry => hg entry.children

theorem ensureEntry (htidy : staging.Tidy) (path : Path) (name : String) :
    (staging.ensureEntry path name).Tidy := by
  rw [Staging.ensureEntry]
  split
  next => exact htidy
  next =>
    refine ⟨Keyed.distinct_put htidy.distinct, htidy.roots_nodup, fun entry hentry => ?_⟩
    rcases Keyed.mem_put hentry with rfl | hold
    · exact List.nodup_nil
    · exact htidy.children_nodup entry hold

theorem prune (htidy : staging.Tidy) (path : Path) : (staging.prune path).2.Tidy where
  distinct := distinct_prune htidy.distinct path
  roots_nodup := htidy.roots_nodup
  children_nodup := fun entry hentry =>
    htidy.children_nodup entry (List.mem_filter.mp hentry).1

theorem register (htidy : staging.Tidy) {node : Node} (hnode : node.Distinct) (path : Path) :
    Tidy { staging with entries := registerNode path node staging.entries } where
  distinct := distinct_registerNode node path htidy.distinct
  roots_nodup := htidy.roots_nodup
  children_nodup := children_nodup_registerNode hnode path htidy.children_nodup

theorem rekey (htidy : staging.Tidy) (old new : Path) : (staging.rekey old new).Tidy where
  distinct := distinct_rekey staging old new
  roots_nodup := htidy.roots_nodup
  children_nodup := by
    intro entry hentry
    obtain ⟨source, hsource, rfl⟩ := List.mem_map.mp (Keyed.mem_of_mem_ofList hentry)
    exact htidy.children_nodup source hsource

end Tidy

/-! ## What is registered after an edit -/

@[simp] theorem contains_updateEntry (staging : Staging) (path : Path) (f : Entry → Entry)
    (other : Path) : contains (staging.updateEntry path f) other = staging.contains other := by
  rw [contains_eq_isSome, contains_eq_isSome, entry?_updateEntry]
  split
  next => exact Option.isSome_map
  next => rfl

@[simp] theorem contains_relist (staging : Staging) (parent : Option Path)
    (g : List String → List String) (path : Path) :
    contains (staging.relist parent g) path = staging.contains path := by
  cases parent with
  | none => rfl
  | some above => exact contains_updateEntry staging above _ path

theorem contains_ensureEntry (staging : Staging) (path other : Path) (name : String) :
    contains (staging.ensureEntry path name) other = (staging.contains other || path = other) := by
  rw [contains_eq_isSome, entry?_ensureEntry, Option.isSome_or, ← contains_eq_isSome]
  by_cases hpath : path = other
  · simp [hpath]
  · simp [hpath]

theorem contains_prune (staging : Staging) (path other : Path) :
    contains (staging.prune path).2 other =
      (!other.startsWith path && staging.contains other) := by
  rw [contains_eq_isSome, entry?_prune]
  cases other.startsWith path <;> rfl

/-- Registering a node takes nothing away. -/
theorem contains_registerNode {node : Node} (hnode : node.Distinct) (path : Path) {other : Path}
    (hcontains : staging.contains other = true ∨ other = path) :
    contains { staging with entries := registerNode path node staging.entries } other = true := by
  by_cases hbelow : other.startsWith path = true
  · obtain ⟨names, rfl⟩ := Path.startsWith_iff_extend.mp hbelow
    refine (congrArg Option.isSome (get?_registerNode hnode path names _)).trans ?_
    rw [Option.isSome_or, Bool.or_eq_true]
    rcases hcontains with hold | hself
    · exact .inr hold
    · obtain rfl : names = [] := Path.extend_inj.mp (hself.trans path.extend_nil.symm)
      exact .inl rfl
  · have hold := hcontains.resolve_right fun hself => hbelow (hself ▸ path.startsWith_refl)
    exact (congrArg Option.isSome (get?_registerNode_off node path hbelow _)).trans hold

/-- A root lies at or below another place only if it is that place. -/
theorem single_startsWith_iff {root : String} {path : Path} :
    (Path.single root).startsWith path = true ↔ path = .single root := by
  constructor
  · intro hstarts
    obtain ⟨names, hnames⟩ := Path.startsWith_iff_extend.mp hstarts
    obtain ⟨first, rest⟩ := path
    simp_all [Path.single, Path.extend]
  · rintro rfl
    exact Path.startsWith_refl _

theorem placeUnder_eq_single_iff {parent : Option Path} {name root : String} :
    placeUnder parent name = .single root ↔ parent = none ∧ name = root := by
  cases parent with
  | none => simp [placeUnder, Path.single]
  | some above => simp [placeUnder, Path.single, Path.child]

namespace Sound

/-! ## Edits keep a staging area sound -/

theorem empty : Sound .empty where
  toTidy := .empty
  root_staged := by simp [Staging.empty]

/-- An edit of entries keeps a staging area sound if it keeps their lists without
repetitions. -/
theorem updateEntry (hsound : staging.Sound) (path : Path) {f : Entry → Entry}
    (hf : ∀ entry : Entry, entry.children.Nodup → (f entry).children.Nodup) :
    (staging.updateEntry path f).Sound where
  toTidy := hsound.toTidy.updateEntry path hf
  root_staged := fun root hroot => by
    rw [contains_updateEntry]
    exact hsound.root_staged root hroot

/-- A name is declared among the roots or below a parent, and staged there. -/
theorem plant (hsound : staging.Sound) (parent : Option Path) (name : String) :
    Sound ((staging.relist parent (declare name)).ensureEntry (placeUnder parent name) name) where
  toTidy := (hsound.toTidy.relist parent fun _ => nodup_declare).ensureEntry _ _
  root_staged := by
    intro root hroot
    have hroots : root ∈ (staging.relist parent (declare name)).roots := by
      rw [Staging.ensureEntry] at hroot
      split at hroot <;> exact hroot
    rw [contains_ensureEntry, contains_relist, Bool.or_eq_true, decide_eq_true_iff,
      placeUnder_eq_single_iff]
    cases parent with
    | none =>
        rcases mem_declare hroots with rfl | hold
        · exact .inr ⟨rfl, rfl⟩
        · exact .inl (hsound.root_staged root hold)
    | some above => exact .inl (hsound.root_staged root hroots)

/-- A name is struck among the roots or below a parent, with everything staged below
it. -/
theorem fell (hsound : staging.Sound) (parent : Option Path) (name : String) :
    Sound ((staging.relist parent (·.filter fun other => other != name)).prune
      (placeUnder parent name)).2 where
  toTidy := (hsound.toTidy.relist parent fun _ hnodup => hnodup.filter _).prune _
  root_staged := by
    intro root hroot
    have hkept : root ∈ staging.roots ∧ ¬ (parent = none ∧ name = root) := by
      cases parent with
      | none =>
          obtain ⟨hold, hne⟩ := List.mem_filter.mp hroot
          exact ⟨hold, fun heq => by simp [heq.2] at hne⟩
      | some above => exact ⟨hroot, fun heq => nomatch heq.1⟩
    rw [← placeUnder_eq_single_iff, ← single_startsWith_iff] at hkept
    rw [contains_prune, contains_relist, hsound.root_staged root hkept.1, Bool.and_true,
      Bool.not_eq_true']
    exact Bool.eq_false_iff.mpr hkept.2

/-- A staged name becomes another one, whose former bearer goes. -/
theorem rename (hsound : staging.Sound) {parent : Option Path} {old new : String}
    (hne : old ≠ new) (hcontains : staging.contains (placeUnder parent old) = true) :
    (staging.renamedUnder parent old new).Sound where
  toTidy := by
    have hrelisted := (hsound.toTidy.prune (placeUnder parent new)).relist parent
      fun _ => nodup_renamedNames old new
    exact (hrelisted.rekey _ _).updateEntry _ fun _ hnodup => hnodup
  root_staged := by
    intro root hroot
    rw [roots_renamedUnder] at hroot
    cases parent with
    | none =>
        have hbelow : entry? (staging.renamedUnder none old new)
            ((placeUnder none root).extend []) = _ :=
          entry?_renamedUnder_below hsound.distinct hne root []
        rw [Path.extend_nil, Path.extend_nil] at hbelow
        change entry? _ (Path.single root) = _ at hbelow
        rw [contains_eq_isSome, hbelow]
        rcases mem_renamedNames hsound.roots_nodup hroot with rfl | ⟨hold, hold', hnew⟩
        · rw [if_pos rfl, Option.isSome_map]
          exact hcontains
        · rw [if_neg hnew, if_neg hold']
          exact hsound.root_staged root hold
    | some above =>
        -- The root lies below neither name, so that its entry stays.
        have hapart (name : String) :
            ¬ (Path.single root).startsWith (placeUnder (some above) name) = true := by
          rw [single_startsWith_iff, placeUnder_eq_single_iff]
          exact fun heq => nomatch heq.1
        rw [contains_eq_isSome, entry?_renamedUnder_off hsound.distinct hne (hapart old) (hapart new),
          ← contains_eq_isSome, contains_relist]
        exact hsound.root_staged root hroot

theorem stageRoot (hsound : staging.Sound) {root : Node} (hroot : root.Distinct) :
    (staging.stageRoot root).Sound where
  toTidy := (hsound.toTidy.relist none fun _ => nodup_declare).register hroot _
  root_staged := by
    intro other hother
    have hcontains : staging.contains (.single other) = true ∨
        Path.single other = .single root.name :=
      (mem_declare hother).symm.imp (hsound.root_staged other) (congrArg Path.single)
    exact contains_registerNode hroot _ hcontains

theorem stageNode (hsound : staging.Sound) {node : Node} (hnode : node.Distinct) (path : Path) :
    (staging.stageNode path node).Sound where
  toTidy := (hsound.toTidy.prune path).register hnode path
  root_staged := by
    intro root hroot
    -- Pruning takes the entry of a root only at its own path, where the node is staged.
    have hcontains : contains (staging.prune path).2 (.single root) = true ∨
        Path.single root = path := by
      by_cases hself : path = .single root
      · exact .inr hself.symm
      · left
        rw [contains_prune, hsound.root_staged root hroot, Bool.and_true, Bool.not_eq_true']
        exact Bool.eq_false_iff.mpr (mt single_startsWith_iff.mp hself)
    exact contains_registerNode hnode path hcontains

theorem renameNode (hsound : staging.Sound) (path : Path) (name : String) :
    (staging.renameNode path name).2.Sound := by
  obtain ⟨parent, hpath⟩ := exists_placeUnder path
  rw [hpath]
  generalize path.leaf = old
  by_cases hcontains : staging.contains (placeUnder parent old) = true
  · by_cases hne : old = name
    · subst hne
      rwa [renameNode_self hcontains]
    · rw [renameNode_eq hne hcontains]
      exact hsound.rename hne hcontains
  · rwa [renameNode_of_unregistered hcontains]

theorem addChild (hsound : staging.Sound) (parent : Path) (name : String) :
    (staging.addChild parent name).2.Sound := by
  by_cases hcontains : staging.contains parent = true
  · rw [addChild_eq hcontains]
    exact hsound.plant (some parent) name
  · rwa [Staging.addChild, if_neg hcontains]

/-- What one edit preserves. -/
theorem edit (hsound : staging.Sound) (edit : Edit) (hedit : edit.Distinct) :
    (edit.onStaging staging).Sound := by
  cases edit with
  | addRoot name => exact hsound.plant none name
  | addChild parent name => exact hsound.addChild parent name
  | removeChild parent name => exact hsound.fell (some parent) name
  | removeNode path =>
      obtain ⟨parent, hpath⟩ := exists_placeUnder path
      rw [Edit.onStaging, hpath, removeNode_eq]
      exact hsound.fell parent path.leaf
  | renameNode path name => exact hsound.renameNode path name
  | stageNode path node => exact hsound.stageNode hedit path
  | editContent path f => exact hsound.updateEntry path fun _ hnodup => hnodup

theorem ofForest {forest : Forest} (hforest : forest.Distinct) : Sound (.ofForest forest) := by
  rw [Staging.ofForest]
  rw [Forest.Distinct] at hforest
  generalize forest.roots = roots at hforest
  suffices hfrom : ∀ staging : Staging, staging.Sound →
      (roots.foldl Staging.stageRoot staging).Sound from hfrom _ empty
  induction roots with
  | nil => exact fun _ hsound => hsound
  | cons root rest ih =>
      obtain ⟨hroot, hrest⟩ := List.forall_mem_cons.mp hforest
      exact fun staging hsound => ih hrest _ (hsound.stageRoot hroot)

end Sound

/-- The run: whatever the edits, they lead to a sound staging area. -/
theorem Reachable.sound (hreachable : staging.Reachable) : staging.Sound := by
  induction hreachable with
  | empty => exact .empty
  | ofForest hdistinct => exact .ofForest hdistinct
  | edit _ edit hdistinct ih => exact ih.edit edit hdistinct
  | @declareChild staging _ parent name ih =>
      rw [declareChild_eq]
      exact ih.updateEntry parent fun _ => nodup_declare
  | replaceEntry _ path hnodup ih => exact ih.updateEntry path fun _ _ => hnodup

end Staging

end TreePass
