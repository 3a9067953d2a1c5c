import TreePass.Proofs.Staging.Building
import TreePass.Proofs.Staging.Met

/-!
# Gaps

A gap is a listed child without an entry. Filling gaps while building comes to the same
as staging an empty node at each gap that is met and refusing gaps then, for what is
staged there opens no further gap. If gaps are refused, a build fails at the first path,
in pre-order, that has no entry or whose entry has two members of one name.
-/

namespace TreePass.Staging

variable {staging : Staging}

/-! ## Filling the gaps -/

/-- The paths that a build meets without an entry. -/
def gaps (staging : Staging) : List Path :=
  staging.itinerary.filter fun path => !staging.contains path

/-- The staging area with an empty node at every gap. -/
def filled (staging : Staging) : Staging :=
  staging.gaps.foldl (fun filled gap => filled.ensureEntry gap gap.leaf) staging

theorem contains_eq_false_iff {path : Path} :
    staging.contains path = false ↔ staging.entry? path = none := by
  rw [contains_eq_isSome, Option.isSome_eq_false_iff, Option.isNone_iff_eq_none]

theorem mem_gaps_iff_meets {path : Path} :
    path ∈ staging.gaps ↔ staging.Meets path ∧ staging.entry? path = none := by
  rw [gaps, List.mem_filter, mem_itinerary_iff, Bool.not_eq_true', contains_eq_false_iff]

/-- Where every declared root has an entry, gaps are children that a node lists which is
met. -/
theorem Sound.mem_gaps_iff (hsound : staging.Sound) {path : Path} :
    path ∈ staging.gaps ↔ ∃ parent entry name, staging.Meets parent ∧
      staging.entry? parent = some entry ∧ name ∈ entry.children ∧
      path = parent.child name ∧ staging.entry? path = none := by
  rw [mem_gaps_iff_meets]
  constructor
  · rintro ⟨hmeets, hgap⟩
    cases hmeets with
    | @root name hdeclared =>
        have hstaged := hsound.root_staged name hdeclared
        rw [contains_eq_false_iff.mpr hgap] at hstaged
        cases hstaged
    | child hparent hstaged hlisted => exact ⟨_, _, _, hparent, hstaged, hlisted, rfl, hgap⟩
  · rintro ⟨parent, entry, name, hparent, hstaged, hlisted, rfl, hgap⟩
    exact ⟨.child hparent hstaged hlisted, hgap⟩

theorem entry?_foldl_ensureEntry (paths : List Path) (staging : Staging) (path : Path) :
    entry? (paths.foldl (fun filled gap => filled.ensureEntry gap gap.leaf) staging) path =
      (staging.entry? path).or (if path ∈ paths then some (.named path.leaf) else none) := by
  induction paths generalizing staging with
  | nil => simp
  | cons first rest ih =>
      rw [List.foldl_cons, ih, entry?_ensureEntry, Option.or_assoc]
      by_cases hfirst : first = path
      · subst hfirst
        rw [if_pos rfl, if_pos List.mem_cons_self, Option.some_or]
      · simp [hfirst, Ne.symm hfirst]

theorem entry?_filled (staging : Staging) (path : Path) :
    staging.filled.entry? path =
      (staging.entry? path).or (if path ∈ staging.gaps then some (.named path.leaf) else none) :=
  entry?_foldl_ensureEntry staging.gaps staging path

theorem entry?_filled_of_registered {path : Path} {entry : Entry}
    (hentry : staging.entry? path = some entry) : staging.filled.entry? path = some entry := by
  rw [entry?_filled, hentry, Option.some_or]

theorem entry?_filled_of_gap {path : Path} (hgap : path ∈ staging.gaps) :
    staging.filled.entry? path = some (.named path.leaf) := by
  rw [entry?_filled, (mem_gaps_iff_meets.mp hgap).2, Option.none_or, if_pos hgap]

theorem mem_gaps_of_unregistered {path : Path} (hmeets : staging.Meets path)
    (hunregistered : ¬ staging.contains path = true) : path ∈ staging.gaps :=
  mem_gaps_iff_meets.mpr
    ⟨hmeets, contains_eq_false_iff.mp (Bool.eq_false_iff.mpr hunregistered)⟩

/-- Once gaps are filled, there is an entry wherever the build came to before. -/
theorem contains_filled {path : Path} (hmeets : staging.Meets path) :
    staging.filled.contains path = true := by
  cases hentry : staging.entry? path with
  | some entry => exact contains_of_registered (entry?_filled_of_registered hentry)
  | none =>
      exact contains_of_registered (entry?_filled_of_gap (mem_gaps_iff_meets.mpr ⟨hmeets, hentry⟩))

theorem roots_ensureEntry (staging : Staging) (path : Path) (name : String) :
    (staging.ensureEntry path name).roots = staging.roots := by
  rw [ensureEntry]
  split <;> rfl

theorem roots_filled (staging : Staging) : staging.filled.roots = staging.roots := by
  rw [filled]
  generalize staging.gaps = paths
  induction paths generalizing staging with
  | nil => rfl
  | cons first rest ih => rw [List.foldl_cons, ih, roots_ensureEntry]

theorem filled_of_no_gaps (hgaps : staging.gaps = []) : staging.filled = staging := by
  rw [filled, hgaps, List.foldl_nil]

/-! ## Filled while building or before -/

/-- An empty node is built as it is, whatever the policy. -/
theorem buildAt_named {path : Path} {name : String} (policy : MissingChild)
    (hentry : staging.entry? path = some (.named name)) :
    staging.buildAt policy path = .ok (.placed name path) := by
  rw [buildAt_of_registered hentry]
  rfl

theorem buildAt_filled_of_gap {path : Path} (policy : MissingChild)
    (hgap : path ∈ staging.gaps) :
    staging.filled.buildAt policy path = .ok (.placed path.leaf path) :=
  buildAt_named policy (entry?_filled_of_gap hgap)

/-- From a registered path on, filling the gaps that are met comes to refusing them once
they are filled. -/
theorem buildAt_fill_eq {path : Path} (hmeets : staging.Meets path)
    (hcontains : staging.contains path = true) :
    staging.buildAt .fill path = staging.filled.buildAt .refuse path := by
  induction path using staging.induction_descent with
  | step path ih =>
      obtain ⟨entry, hentry⟩ := Option.isSome_iff_exists.mp hcontains
      rw [buildAt_of_registered hentry,
        buildAt_of_registered (entry?_filled_of_registered hentry)]
      refine congrArg _ (funext fun members => ?_)
      refine congrArg (· >>= _) (mapM_congr fun name hname => ?_)
      have hchild : staging.Meets (path.child name) := .child hmeets hentry hname
      rw [if_pos (contains_filled hchild)]
      split
      next hregistered => rw [ih name hregistered hchild hregistered]
      next hunregistered =>
        rw [buildAt_filled_of_gap .refuse (mem_gaps_of_unregistered hchild hunregistered),
          Path.leaf_child]
        rfl

theorem buildRoot_fill_eq {name : String} (hname : name ∈ staging.roots) :
    staging.buildRoot .fill name = staging.filled.buildRoot .refuse name := by
  have hroot : staging.Meets (.single name) := .root hname
  unfold buildRoot
  rw [if_pos (contains_filled hroot)]
  split
  next hregistered => rw [buildAt_fill_eq hroot hregistered]
  next hunregistered =>
    rw [buildAt_filled_of_gap .refuse (mem_gaps_of_unregistered hroot hunregistered)]
    rfl

theorem build_fill_eq (staging : Staging) :
    staging.build .fill = staging.filled.build .refuse := by
  rw [build, build, roots_filled]
  exact congrArg (· >>= _) (mapM_congr fun name hname => buildRoot_fill_eq hname)

/-! ## The first defect -/

/-- What is wrong at a path, when gaps are refused. -/
def flaw? (staging : Staging) (path : Path) : Option BuildFault :=
  match staging.entry? path with
  | some entry =>
      (firstRepeated [] (entry.members.map Member.name)).map (.duplicateMember path)
  | none =>
      match path.parent with
      | .ok parent => some (.missingChild parent path.leaf)
      | .error _ => some (.missingRoot path.leaf)

/-- The path has an entry, whose members have different names. -/
def FlawlessAt (staging : Staging) (path : Path) : Prop :=
  ∃ entry, staging.entry? path = some entry ∧ (entry.members.map Member.name).Nodup

/-- What a build comes to first, in pre-order, that stops it if gaps are refused: a name
that an earlier member of the same node has, or the first child without an entry that a
node lists. -/
inductive FirstDefect (staging : Staging) : BuildFault → Prop where
  | memberClash {path : Path} {before after : List Path} {entry : Entry} {name : String}
      {earlier later : List String}
      (itinerary_eq : staging.itinerary = before ++ path :: after)
      (before_flawless : ∀ other ∈ before, staging.FlawlessAt other)
      (staged : staging.entry? path = some entry)
      (names_eq : entry.members.map Member.name = earlier ++ name :: later)
      (earlier_nodup : earlier.Nodup) (repeated : name ∈ earlier) :
      FirstDefect staging (.duplicateMember path name)
  | gap {parent : Path} {before after : List Path} {entry : Entry} {name : String}
      {listed later : List String}
      (itinerary_eq : staging.itinerary = before ++ parent.child name :: after)
      (before_flawless : ∀ other ∈ before, staging.FlawlessAt other)
      (parent_met : staging.Meets parent) (staged : staging.entry? parent = some entry)
      (children_eq : entry.children = listed ++ name :: later)
      (listed_staged : ∀ other ∈ listed, staging.contains (parent.child other) = true)
      (unstaged : staging.entry? (parent.child name) = none) :
      FirstDefect staging (.missingChild parent name)

theorem flaw?_of_registered {path : Path} {entry : Entry}
    (hentry : staging.entry? path = some entry) :
    staging.flaw? path =
      (firstRepeated [] (entry.members.map Member.name)).map (.duplicateMember path) := by
  rw [flaw?, hentry]

theorem flaw?_child_of_gap {parent : Path} {name : String}
    (hgap : staging.entry? (parent.child name) = none) :
    staging.flaw? (parent.child name) = some (.missingChild parent name) := by
  rw [flaw?, hgap, Path.parent_child, Path.leaf_child]

theorem flaw?_eq_none_iff {path : Path} : staging.flaw? path = none ↔ staging.FlawlessAt path := by
  cases hentry : staging.entry? path with
  | none =>
      simp only [flaw?, FlawlessAt, hentry]
      cases path.parent <;> simp
  | some entry =>
      rw [flaw?_of_registered hentry, Option.map_eq_none_iff, firstRepeated_eq_none_iff, FlawlessAt,
        hentry]
      simp

theorem listedAt_of_registered {path : Path} {entry : Entry}
    (hentry : staging.entry? path = some entry) : staging.listedAt path = entry.children := by
  rw [listedAt, hentry, Option.elim_some]

theorem itineraryWithin_of_gap (levels : Nat) {path : Path}
    (hgap : staging.entry? path = none) : staging.itineraryWithin levels path = [path] := by
  cases levels with
  | zero => rfl
  | succ levels => rw [itineraryWithin, listedAt, hgap, Option.elim_none, List.flatMap_nil]

theorem fault?_buildMembers (path : Path) (members : List Member) :
    fault? (buildMembers path members) =
      (firstRepeated [] (members.map Member.name)).map (.duplicateMember path) := by
  rw [buildMembers]
  cases firstRepeated [] (members.map Member.name) <;> rfl

/-- From a registered path on, a build fails with the first flaw that it meets. -/
theorem fault?_buildAt {levels : Nat} {path : Path} (hcontains : staging.contains path = true)
    (hlevels : staging.height < levels + path.length) :
    fault? (staging.buildAt .refuse path) =
      (staging.itineraryWithin levels path).findSome? staging.flaw? := by
  induction levels generalizing path with
  | zero =>
      have hlength := length_le_height hcontains
      omega
  | succ levels ih =>
      obtain ⟨entry, hentry⟩ := Option.isSome_iff_exists.mp hcontains
      rw [buildAt_of_registered hentry, itineraryWithin, listedAt_of_registered hentry,
        ← List.singleton_append, List.findSome?_append, List.findSome?_singleton,
        flaw?_of_registered hentry, ← fault?_buildMembers, findSome?_flatMap]
      refine fault?_bind fun members => ?_
      rw [fault?_map, fault?_mapM]
      refine findSome?_congr fun name _ => ?_
      dsimp only
      split
      next hregistered => rw [fault?_map, ih hregistered (by rw [Path.length_child]; omega)]
      next hunregistered =>
        have hgap := contains_eq_false_iff.mp (Bool.eq_false_iff.mpr hunregistered)
        rw [itineraryWithin_of_gap levels hgap, List.findSome?_singleton, flaw?_child_of_gap hgap]
        rfl

theorem fault?_build (staging : Staging) :
    fault? (staging.build .refuse) = staging.itinerary.findSome? staging.flaw? := by
  rw [build, fault?_map, fault?_mapM, itinerary, findSome?_flatMap]
  refine findSome?_congr fun name _ => ?_
  unfold buildRoot
  split
  next hregistered => exact fault?_buildAt hregistered (Nat.lt_succ_self _)
  next hunregistered =>
    have hgap := contains_eq_false_iff.mp (Bool.eq_false_iff.mpr hunregistered)
    rw [itineraryWithin_of_gap _ hgap, List.findSome?_singleton, flaw?, hgap]
    rfl

/-- A refused gap is the first child that its parent lists without an entry. -/
theorem exists_of_buildAt_gap {path parent : Path} {name : String} (hmeets : staging.Meets path)
    (hcontains : staging.contains path = true)
    (hfault : staging.buildAt .refuse path = .error (.missingChild parent name)) :
    ∃ entry listed later, staging.Meets parent ∧ staging.entry? parent = some entry ∧
      entry.children = listed ++ name :: later ∧
      ∀ other ∈ listed, staging.contains (parent.child other) = true := by
  induction path using staging.induction_descent with
  | step path ih =>
      obtain ⟨entry, hentry⟩ := Option.isSome_iff_exists.mp hcontains
      rw [buildAt_of_registered hentry] at hfault
      rcases bind_eq_error.mp hfault with hmembers | ⟨members, -, hfault⟩
      · have hclash := fault?_buildMembers path entry.members
        rw [hmembers, fault?] at hclash
        obtain ⟨member, -, hclash⟩ := Option.map_eq_some_iff.mp hclash.symm
        cases hclash
      · rcases bind_eq_error.mp hfault with hchildren | ⟨children, -, hfault⟩
        · obtain ⟨listed, first, later, hlist, hlisted, hfirst⟩ := split_of_mapM_error hchildren
          have hmem : first ∈ entry.children := by
            rw [hlist]
            exact List.mem_append_right _ List.mem_cons_self
          dsimp only at hfirst
          split at hfirst
          next hregistered =>
            rcases bind_eq_error.mp hfirst with hchild | ⟨child, -, hchild⟩
            · exact ih first hregistered (.child hmeets hentry hmem) hregistered hchild
            · cases hchild
          next =>
            cases hfirst
            refine ⟨entry, listed, later, hmeets, hentry, hlist, fun other hother => ?_⟩
            -- The children before it were made, and an unregistered one would have been refused.
            obtain ⟨value, hvalue⟩ := hlisted other hother
            dsimp only at hvalue
            split at hvalue
            next hregistered => exact hregistered
            next => cases hvalue
        · cases hfault

theorem Sound.exists_of_build_gap (hsound : staging.Sound) {parent : Path} {name : String}
    (hfault : staging.build .refuse = .error (.missingChild parent name)) :
    ∃ entry listed later, staging.Meets parent ∧ staging.entry? parent = some entry ∧
      entry.children = listed ++ name :: later ∧
      ∀ other ∈ listed, staging.contains (parent.child other) = true := by
  rcases bind_eq_error.mp hfault with hroots | ⟨roots, -, hfault⟩
  · obtain ⟨root, hroot, hfault⟩ := exists_of_mapM_error hroots
    unfold buildRoot at hfault
    rw [if_pos (hsound.root_staged root hroot)] at hfault
    exact exists_of_buildAt_gap (.root hroot) (hsound.root_staged root hroot) hfault
  · cases hfault

theorem FirstDefect.fault_eq {fault : BuildFault} (hfirst : staging.FirstDefect fault) :
    staging.build .refuse = .error fault := by
  rw [← fault?_eq_some_iff, fault?_build, List.findSome?_eq_some_iff]
  cases hfirst with
  | memberClash hitinerary hbefore hstaged hnames hnodup hrepeated =>
      refine ⟨_, _, _, hitinerary, ?_,
        fun other hother => flaw?_eq_none_iff.mpr (hbefore other hother)⟩
      have hnone : firstRepeated [] _ = none :=
        firstRepeated_eq_none_iff.mpr ⟨hnodup, fun _ _ => List.not_mem_nil⟩
      rw [flaw?_of_registered hstaged,
        firstRepeated_eq_some_iff.mpr ⟨_, _, hnames, hnone, .inr hrepeated⟩]
      rfl
  | gap hitinerary hbefore _ _ _ _ hunstaged =>
      exact ⟨_, _, _, hitinerary, flaw?_child_of_gap hunstaged,
        fun other hother => flaw?_eq_none_iff.mpr (hbefore other hother)⟩

theorem Sound.firstDefect_of_build (hsound : staging.Sound) {fault : BuildFault}
    (hfault : staging.build .refuse = .error fault) : staging.FirstDefect fault := by
  have hflaw := fault?_eq_some_iff.mpr hfault
  rw [fault?_build, List.findSome?_eq_some_iff] at hflaw
  obtain ⟨before, path, after, hitinerary, hflaw, hbefore⟩ := hflaw
  have hflawless : ∀ other ∈ before, staging.FlawlessAt other :=
    fun other hother => flaw?_eq_none_iff.mp (hbefore other hother)
  cases hentry : staging.entry? path with
  | some entry =>
      rw [flaw?_of_registered hentry] at hflaw
      obtain ⟨name, hname, rfl⟩ := Option.map_eq_some_iff.mp hflaw
      obtain ⟨earlier, later, hnames, hearlier, hrepeated⟩ := firstRepeated_eq_some_iff.mp hname
      exact .memberClash hitinerary hflawless hentry hnames
        (firstRepeated_eq_none_iff.mp hearlier).1 (hrepeated.resolve_left List.not_mem_nil)
  | none =>
      have hpath : path ∈ staging.itinerary := by
        rw [hitinerary]
        exact List.mem_append_right _ List.mem_cons_self
      have hgap : path ∈ staging.gaps := mem_gaps_iff_meets.mpr ⟨mem_itinerary_iff.mp hpath, hentry⟩
      obtain ⟨parent, -, name, -, -, -, rfl, -⟩ := hsound.mem_gaps_iff.mp hgap
      rw [flaw?_child_of_gap hentry] at hflaw
      cases hflaw
      obtain ⟨entry, listed, later, hparent, hstaged, hchildren, hlisted⟩ :=
        hsound.exists_of_build_gap hfault
      exact .gap hitinerary hflawless hparent hstaged hchildren hlisted hentry

/-- What is built although gaps are refused has none. -/
theorem gaps_eq_nil_of_build {forest : Forest} (hbuild : staging.build .refuse = .ok forest) :
    staging.gaps = [] := by
  have hnone : fault? (staging.build .refuse) = none := by rw [hbuild, fault?]
  rw [fault?_build, List.findSome?_eq_none_iff] at hnone
  refine List.eq_nil_iff_forall_not_mem.mpr fun path hpath => ?_
  obtain ⟨hmeets, hgap⟩ := mem_gaps_iff_meets.mp hpath
  obtain ⟨entry, hentry, -⟩ := flaw?_eq_none_iff.mp (hnone path (mem_itinerary_iff.mpr hmeets))
  rw [hgap] at hentry
  cases hentry

/-- Wherever edits lead, filling gaps while building comes to staging an empty node at
each gap before; and refusing them comes to the same forest as filling, or it stops at
the first defect. -/
theorem Reachable.policies_differ_in_gaps (hreachable : staging.Reachable) :
    staging.build .fill = staging.filled.build .refuse ∧
      (∀ forest, staging.build .refuse = .ok forest → staging.build .fill = .ok forest) ∧
      ∀ fault, staging.build .refuse = .error fault ↔ staging.FirstDefect fault := by
  refine ⟨build_fill_eq staging, fun forest hbuild => ?_, fun fault => ?_⟩
  · rw [build_fill_eq, filled_of_no_gaps (gaps_eq_nil_of_build hbuild), hbuild]
  · exact ⟨hreachable.sound.firstDefect_of_build, FirstDefect.fault_eq⟩

/-- A node with two members of one name. -/
def twofold : Content := { members := [.named "m", .named "n", .named "m"] }

/-- A root that lists a gap before a node with two members of one name. There is a node
staged below the gap. -/
def riddled : Staging :=
  [Edit.addChild (.single "a") "c", .editContent ⟨"a", ["c"]⟩ fun _ => twofold,
    .stageNode ⟨"a", ["b", "x"]⟩ (.named "x")].foldl Edit.onStaging
    ((empty.addRoot "a").declareChild (.single "a") "b").2

theorem policies_differ_in_gaps_riddled :
    riddled.Reachable ∧ riddled.gaps = [⟨"a", ["b"]⟩] ∧
      riddled.build .refuse = .error (.missingChild (.single "a") "b") ∧
      riddled.build .fill = .error (.duplicateMember ⟨"a", ["c"]⟩ "m") ∧
      (empty.addRoot "a").build .fill = .ok ⟨[.named "a"]⟩ := by
  have hnode : (Node.named "x").Distinct := by decide
  have hplanted : (empty.addRoot "a").Reachable := Reachable.empty.edit (.addRoot "a") trivial
  have hreachable : riddled.Reachable :=
    (((hplanted.declareChild (.single "a") "b").edit (.addChild (.single "a") "c") trivial).edit
      (.editContent ⟨"a", ["c"]⟩ _) trivial).edit (.stageNode ⟨"a", ["b", "x"]⟩ _) hnode
  have hroot : riddled.entry? (.single "a") = some ⟨{}, "a", ["b", "c"]⟩ := by decide
  have hbare : riddled.filled.entry? ⟨"a", ["b"]⟩ = some (.named "b") := by decide
  have hitinerary : riddled.itinerary =
      [.single "a"] ++ (Path.single "a").child "b" :: [⟨"a", ["c"]⟩] := by decide
  have hfilled : riddled.filled.itinerary =
      [.single "a", ⟨"a", ["b"]⟩] ++ ⟨"a", ["c"]⟩ :: [] := by decide
  obtain ⟨hfill, -, hrefuse⟩ := Reachable.policies_differ_in_gaps hreachable
  have hgap : riddled.FirstDefect (.missingChild (.single "a") "b") := by
    have hchildren : ["b", "c"] = [] ++ "b" :: ["c"] := rfl
    refine .gap hitinerary ?_ (.root (by decide)) hroot hchildren (by simp) (by decide)
    simpa using ⟨_, hroot, List.nodup_nil⟩
  have hclash : riddled.filled.FirstDefect (.duplicateMember ⟨"a", ["c"]⟩ "m") := by
    have hstaged : riddled.filled.entry? ⟨"a", ["c"]⟩ = some ⟨twofold, "c", []⟩ := by decide
    have hnames : twofold.members.map Member.name = ["m", "n"] ++ "m" :: [] := rfl
    refine .memberClash hfilled ?_ hstaged hnames (by decide) (by decide)
    have hfirst := entry?_filled_of_registered hroot
    simpa using ⟨⟨_, hfirst, List.nodup_nil⟩, ⟨_, hbare, List.nodup_nil⟩⟩
  have hwithin : ((empty.addRoot "a").buildWithin .refuse 1).run =
      some ((empty.addRoot "a").build .refuse) := buildWithin_eq .refuse (by decide)
  have hbuilt := (Reachable.policies_differ_in_gaps hplanted).2.1 ⟨[.named "a"]⟩
  exact ⟨hreachable, by decide, (hrefuse _).mpr hgap, hfill.trans hclash.fault_eq,
    hbuilt (Option.some.inj hwithin.symm)⟩

end TreePass.Staging
