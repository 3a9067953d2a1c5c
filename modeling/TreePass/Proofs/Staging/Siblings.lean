import TreePass.Proofs.Staging.Lookup
import TreePass.Rewrite

/-!
# Siblings in a staging area

A name stands below a parent or among the roots, and the names that stand together are
in one list. Editing this list leaves all entries but that of the parent alone. When a
name becomes another one, which is cleared before, what is registered at and below the
one moves to below the other. What moves and what stays never meet, so that the registry
holds the entries it held, in their order, under other paths.
-/

namespace TreePass.Staging

open Rewriter (placeUnder)

/-- The way to the siblings below a parent; the roots have none. -/
def placeOf : Option Path → List String
  | none => []
  | some above => above.segments

theorem segments_placeUnder (parent : Option Path) (name : String) (names : List String) :
    Path.segments ((placeUnder parent name).extend names) = placeOf parent ++ name :: names := by
  cases parent with
  | none => rfl
  | some above =>
      rw [placeUnder, Path.extend_child, Path.segments_extend]
      rfl

theorem placeUnder_eq_extend_iff {parent : Option Path} {name other : String}
    {names : List String} :
    placeUnder parent name = (placeUnder parent other).extend names ↔
      other = name ∧ names = [] := by
  constructor
  · intro heq
    have hname := segments_placeUnder parent name []
    rw [Path.extend_nil, heq, segments_placeUnder, List.append_cancel_left_eq] at hname
    simpa using hname
  · rintro ⟨rfl, rfl⟩
    rw [Path.extend_nil]

theorem placeUnder_startsWith_iff {parent : Option Path} {name other : String}
    {names : List String} :
    ((placeUnder parent name).extend names).startsWith (placeUnder parent other) = true ↔
      name = other := by
  constructor
  · intro hstarts
    rw [Path.startsWith_iff, segments_placeUnder] at hstarts
    have hother := segments_placeUnder parent other []
    rw [Path.extend_nil] at hother
    rw [hother, List.prefix_append_right_inj, List.cons_prefix_cons] at hstarts
    exact hstarts.1.symm
  · rintro rfl
    exact Path.extend_startsWith _ _

theorem not_startsWith_placeUnder {name other : String} (hne : name ≠ other)
    (parent : Option Path) (names : List String) :
    ¬ ((placeUnder parent name).extend names).startsWith (placeUnder parent other) = true :=
  mt placeUnder_startsWith_iff.mp hne

/-- Every path stands below its parent, or is a root. -/
theorem exists_placeUnder (path : Path) : ∃ parent, path = placeUnder parent path.leaf := by
  rcases path.single_or_child with hroot | ⟨above, hchild⟩
  · exact ⟨none, hroot⟩
  · exact ⟨some above, hchild⟩

@[simp] theorem leaf_placeUnder (parent : Option Path) (name : String) :
    (placeUnder parent name).leaf = name := by
  cases parent with
  | none => rfl
  | some above => exact Path.leaf_child above name

@[simp] theorem withLeaf_placeUnder (parent : Option Path) (name other : String) :
    (placeUnder parent name).withLeaf other = placeUnder parent other := by
  cases parent with
  | none => rfl
  | some above => exact Path.withLeaf_child above name other

/-! ## Lists of names -/

/-- Changes the list of the names below a parent, or that of the roots. -/
def relist (staging : Staging) (parent : Option Path) (g : List String → List String) :
    Staging :=
  match parent with
  | none => { staging with roots := g staging.roots }
  | some above =>
      staging.updateEntry above fun entry => { entry with children := g entry.children }

theorem entry?_relist (staging : Staging) (parent : Option Path)
    (g : List String → List String) (path : Path) :
    entry? (staging.relist parent g) path =
      if parent = some path then
        (staging.entry? path).map fun entry => { entry with children := g entry.children }
      else staging.entry? path := by
  cases parent with
  | none => rfl
  | some above =>
      rw [relist, entry?_updateEntry]
      exact if_congr Option.some_inj.symm rfl rfl

theorem keys_relist (staging : Staging) (parent : Option Path) (g : List String → List String) :
    Keyed.keys (staging.relist parent g).entries = Keyed.keys staging.entries := by
  cases parent with
  | none => rfl
  | some above => exact Keyed.keys_update above _ staging.entries

theorem listedUnder_relist (staging : Staging) (parent : Option Path)
    {g : List String → List String} (hnil : g [] = []) :
    (staging.relist parent g).listedUnder parent = g (staging.listedUnder parent) := by
  cases parent with
  | none => rfl
  | some above =>
      simp only [listedUnder, entry?_relist, if_true]
      cases staging.entry? above <;> simp [hnil]

/-- A list that is given back leaves everything as it was. -/
theorem relist_eq_self {staging : Staging} {parent : Option Path} {g : List String → List String}
    (hnames : g (staging.listedUnder parent) = staging.listedUnder parent) :
    staging.relist parent g = staging := by
  cases parent with
  | none => exact congrArg (Staging.mk · staging.entries) hnames
  | some above =>
      apply updateEntry_eq_self
      intro entry hentry
      have hchildren : g entry.children = entry.children := by
        simpa [listedUnder, Option.mem_def.mp hentry] using hnames
      rw [hchildren]

theorem relist_id (staging : Staging) (parent : Option Path) :
    staging.relist parent id = staging :=
  relist_eq_self rfl

theorem parent_ne_below (parent : Option Path) (name : String) (names : List String) :
    parent ≠ some ((placeUnder parent name).extend names) := by
  intro heq
  have hsegments := segments_placeUnder parent name names
  cases parent with
  | none => cases heq
  | some above =>
      rw [← Option.some.inj heq] at hsegments
      simp [placeOf] at hsegments

theorem parent_ne_placeUnder (parent : Option Path) (name : String) :
    parent ≠ some (placeUnder parent name) := by
  have hbelow := parent_ne_below parent name []
  rwa [Path.extend_nil] at hbelow

theorem entry?_relist_below (staging : Staging) (parent : Option Path)
    (g : List String → List String) (name : String) (names : List String) :
    entry? (staging.relist parent g) ((placeUnder parent name).extend names) =
      staging.entry? ((placeUnder parent name).extend names) := by
  rw [entry?_relist, if_neg (parent_ne_below parent name names)]

theorem distinct_relist {staging : Staging} (hdistinct : Keyed.Distinct staging.entries)
    (parent : Option Path) (g : List String → List String) :
    Keyed.Distinct (staging.relist parent g).entries := by
  cases parent with
  | none => exact hdistinct
  | some above => exact Keyed.distinct_update above _ hdistinct

theorem entries_relist {staging : Staging} (hdistinct : Keyed.Distinct staging.entries)
    (parent : Option Path) (g : List String → List String) :
    (staging.relist parent g).entries = staging.entries.map fun entry =>
      (entry.1,
        if parent = some entry.1 then { entry.2 with children := g entry.2.children }
        else entry.2) := by
  cases parent with
  | none => simp [relist]
  | some above =>
      rw [relist, updateEntry, Keyed.update_eq_map _ _ hdistinct]
      simp only [Option.some.injEq, eq_comm]

theorem renameFirst_of_nodup {old new : String} {names : List String} (hnodup : names.Nodup) :
    Entry.renameFirst old new names = names.map fun name => if name = old then new else name := by
  induction names with
  | nil => rfl
  | cons name rest ih =>
      obtain ⟨hnew, hrest⟩ := List.nodup_cons.mp hnodup
      rw [Entry.renameFirst, List.map_cons]
      by_cases hname : name = old
      · rw [if_pos hname, if_pos hname]
        congr 1
        refine ((List.map_congr_left fun other hother => ?_).trans (List.map_id rest)).symm
        have hne : other ≠ old := fun heq => hnew (hname.trans heq.symm ▸ hother)
        exact if_neg hne
      · rw [if_neg hname, if_neg hname, ih hrest]

/-- The list of names after `old` has become `new`, where `new` is struck before. -/
def renamedNames (old new : String) (names : List String) : List String :=
  Entry.renameFirst old new (names.filter fun name => name != new)

theorem nodup_renamedNames (old new : String) {names : List String} (hnodup : names.Nodup) :
    (renamedNames old new names).Nodup := by
  rw [renamedNames, renameFirst_of_nodup (hnodup.filter _)]
  refine List.Nodup.map_on (fun name hname other hother heq => ?_) (hnodup.filter _)
  have hne : name ≠ new := by simpa using (List.mem_filter.mp hname).2
  have hne' : other ≠ new := by simpa using (List.mem_filter.mp hother).2
  -- Only the old name becomes the new one, which the filter has struck.
  by_cases hold : name = old
  · by_cases hold' : other = old
    · rw [hold, hold']
    · rw [if_pos hold, if_neg hold'] at heq
      exact absurd heq.symm hne'
  · by_cases hold' : other = old
    · rw [if_neg hold, if_pos hold'] at heq
      exact absurd heq hne
    · rwa [if_neg hold, if_neg hold'] at heq

theorem mem_renamedNames {old new name : String} {names : List String} (hnodup : names.Nodup)
    (hname : name ∈ renamedNames old new names) :
    name = new ∨ name ∈ names ∧ name ≠ old ∧ name ≠ new := by
  rw [renamedNames, renameFirst_of_nodup (hnodup.filter _)] at hname
  obtain ⟨source, hsource, heq⟩ := List.mem_map.mp hname
  obtain ⟨hmem, hne⟩ := List.mem_filter.mp hsource
  split at heq
  next => exact .inl heq.symm
  next hold =>
    subst heq
    exact .inr ⟨hmem, hold, by simpa using hne⟩

/-! ## Where keys move -/

section Renaming

variable {staging : Staging} {parent : Option Path} {old new : String}

theorem placeUnder_startsWith_sibling (hne : old ≠ new) (parent : Option Path) :
    ¬ (placeUnder parent old).startsWith (placeUnder parent new) = true := by
  have hapart := not_startsWith_placeUnder hne parent []
  rwa [Path.extend_nil] at hapart

/-- Only the renamed node comes to stand at the new path itself. -/
theorem moved_eq_placeUnder_iff (hne : old ≠ new) {key : Path}
    (hkey : ¬ key.startsWith (placeUnder parent new) = true) :
    moved (placeUnder parent old) (placeUnder parent new) key = placeUnder parent new ↔
      key = placeUnder parent old := by
  constructor
  · intro heq
    exact moved_inj hkey (placeUnder_startsWith_sibling hne parent)
      (heq.trans (moved_self _ _).symm)
  · rintro rfl
    exact moved_self _ _

/-- A parent does not move with its children. -/
theorem moved_parent (above : Path) (old new : String) :
    moved (placeUnder (some above) old) (placeUnder (some above) new) above = above :=
  moved_of_apart _ (above.not_startsWith_child old)

theorem eq_some_moved_iff {key : Path} :
    parent = some (moved (placeUnder parent old) (placeUnder parent new) key) ↔
      parent = some key := by
  by_cases hbelow : key.startsWith (placeUnder parent old) = true
  · obtain ⟨names, rfl⟩ := Path.startsWith_iff_extend.mp hbelow
    rw [moved_extend]
    exact iff_of_false (parent_ne_below parent new names) (parent_ne_below parent old names)
  · rw [moved_of_apart _ hbelow]

/-- Nothing is left at or below the old path. -/
theorem not_moved_startsWith (hne : old ≠ new) (parent : Option Path) (key : Path) :
    ¬ (moved (placeUnder parent old) (placeUnder parent new) key).startsWith
      (placeUnder parent old) = true := by
  by_cases hbelow : key.startsWith (placeUnder parent old) = true
  · obtain ⟨names, rfl⟩ := Path.startsWith_iff_extend.mp hbelow
    rw [moved_extend]
    exact not_startsWith_placeUnder hne.symm parent names
  · rwa [moved_of_apart _ hbelow]

/-! ## The registry after a renaming -/

/-- The staging area after what is at and below `old` has moved to `new`. -/
def renamedUnder (staging : Staging) (parent : Option Path) (old new : String) : Staging :=
  (((staging.prune (placeUnder parent new)).2.relist parent (renamedNames old new)).rekey
    (placeUnder parent old) (placeUnder parent new)).updateEntry (placeUnder parent new)
      fun entry => { entry with name := new }

/-- What becomes of the entry under a key when `old` becomes `new` below a parent: the
renamed node bears the new name, the parent lists it, and all others are kept. -/
def renamedEntry (parent : Option Path) (old new : String) (key : Path) (entry : Entry) : Entry :=
  if key = placeUnder parent old then { entry with name := new }
  else if parent = some key then { entry with children := renamedNames old new entry.children }
  else entry

@[simp] theorem renamedEntry_self (parent : Option Path) (old new : String) (entry : Entry) :
    renamedEntry parent old new (placeUnder parent old) entry = { entry with name := new } :=
  if_pos rfl

@[simp] theorem renamedEntry_parent (above : Path) (old new : String) (entry : Entry) :
    renamedEntry (some above) old new above entry =
      { entry with children := renamedNames old new entry.children } := by
  have hself : above ≠ placeUnder (some above) old := fun heq =>
    parent_ne_placeUnder (some above) old (congrArg some heq)
  rw [renamedEntry, if_neg hself, if_pos rfl]

theorem renamedEntry_other {key : Path} (hself : key ≠ placeUnder parent old)
    (hparent : parent ≠ some key) (new : String) : renamedEntry parent old new key = id := by
  funext entry
  rw [renamedEntry, if_neg hself, if_neg hparent, id]

theorem roots_renamedUnder (staging : Staging) (parent : Option Path) (old new : String) :
    (staging.renamedUnder parent old new).roots =
      (staging.relist parent (renamedNames old new)).roots := by
  cases parent <;> rfl

theorem distinct_renamedUnder (staging : Staging) (parent : Option Path) (old new : String) :
    Keyed.Distinct (staging.renamedUnder parent old new).entries :=
  Keyed.distinct_update _ _ (distinct_rekey _ _ _)

/-- The registry after a renaming is the one before without what was in the way, entry
for entry and in the same order. -/
theorem entries_renamedUnder (hdistinct : Keyed.Distinct staging.entries) (hne : old ≠ new)
    (parent : Option Path) :
    (staging.renamedUnder parent old new).entries =
      (staging.prune (placeUnder parent new)).2.entries.map fun entry =>
        (moved (placeUnder parent old) (placeUnder parent new) entry.1,
          renamedEntry parent old new entry.1 entry.2) := by
  have hpruned := distinct_prune hdistinct (placeUnder parent new)
  have hrelisted := distinct_relist hpruned parent (renamedNames old new)
  have hfree : ∀ key ∈ Keyed.keys ((staging.prune (placeUnder parent new)).2.relist parent
      (renamedNames old new)).entries, ¬ key.startsWith (placeUnder parent new) = true := by
    rw [keys_relist, keys_prune]
    simp
  rw [renamedUnder, updateEntry, Keyed.update_eq_map _ _ (distinct_rekey _ _ _),
    rekey_entries hrelisted hfree, entries_relist hpruned, List.map_map, List.map_map]
  refine List.map_congr_left fun entry hentry => ?_
  have hkey := (mem_prune_entries.mp hentry).2
  simp only [Function.comp_apply, moved_eq_placeUnder_iff hne hkey, renamedEntry]
  by_cases hself : entry.1 = placeUnder parent old
  · have hparent : parent ≠ some entry.1 := hself ▸ parent_ne_placeUnder parent old
    rw [if_pos hself, if_pos hself, if_neg hparent]
  · rw [if_neg hself, if_neg hself]

theorem keys_renamedUnder (hdistinct : Keyed.Distinct staging.entries) (hne : old ≠ new)
    (parent : Option Path) :
    Keyed.keys (staging.renamedUnder parent old new).entries =
      (Keyed.keys (staging.prune (placeUnder parent new)).2.entries).map
        (moved (placeUnder parent old) (placeUnder parent new)) := by
  rw [entries_renamedUnder hdistinct hne, Keyed.keys, Keyed.keys, List.map_map, List.map_map]
  rfl

/-- An entry that was not in the way is found where its path has moved to. -/
theorem entry?_renamedUnder (hdistinct : Keyed.Distinct staging.entries) (hne : old ≠ new)
    {key : Path} (hkey : ¬ key.startsWith (placeUnder parent new) = true) :
    entry? (staging.renamedUnder parent old new)
        (moved (placeUnder parent old) (placeUnder parent new) key) =
      (staging.entry? key).map (renamedEntry parent old new key) := by
  cases hfound : staging.entry? key with
  | none =>
      rw [Option.map_none, entry?, Keyed.get?_eq_none_iff, keys_renamedUnder hdistinct hne]
      intro hmem
      obtain ⟨other, hother, heq⟩ := List.mem_map.mp hmem
      rw [keys_prune, List.mem_filter, Bool.not_eq_true', ← Bool.not_eq_true] at hother
      obtain rfl := moved_inj hother.2 hkey heq
      exact Keyed.get?_eq_none_iff.mp hfound hother.1
  | some entry =>
      refine Keyed.get?_eq_some_of_mem (distinct_renamedUnder staging parent old new) ?_
      rw [entries_renamedUnder hdistinct hne]
      have hmem := Keyed.mem_of_get? hfound
      exact List.mem_map.mpr ⟨(key, entry), mem_prune_entries.mpr ⟨hmem, hkey⟩, rfl⟩

/-- Away from both names only the parent changes, by the list of the names below it. -/
theorem entry?_renamedUnder_off (hdistinct : Keyed.Distinct staging.entries) (hne : old ≠ new)
    {path : Path} (hold : ¬ path.startsWith (placeUnder parent old) = true)
    (hnew : ¬ path.startsWith (placeUnder parent new) = true) :
    entry? (staging.renamedUnder parent old new) path =
      entry? (staging.relist parent (renamedNames old new)) path := by
  have hfound := entry?_renamedUnder hdistinct hne hnew
  rw [moved_of_apart _ hold] at hfound
  rw [hfound, entry?_relist]
  by_cases hparent : parent = some path
  · subst hparent
    rw [if_pos rfl]
    exact Option.map_congr fun entry _ => renamedEntry_parent path old new entry
  · have hself : path ≠ placeUnder parent old := fun heq => hold (heq ▸ path.startsWith_refl)
    rw [if_neg hparent, renamedEntry_other hself hparent, Option.map_id, id]

/-- Below the new name stands what was below the old one, where nothing is left. -/
theorem entry?_renamedUnder_below (hdistinct : Keyed.Distinct staging.entries) (hne : old ≠ new)
    (name : String) (names : List String) :
    entry? (staging.renamedUnder parent old new) ((placeUnder parent name).extend names) =
      if name = new then
        (staging.entry? ((placeUnder parent old).extend names)).map fun entry =>
          if names = [] then { entry with name := new } else entry
      else if name = old then none
      else staging.entry? ((placeUnder parent name).extend names) := by
  have hother (name : String) (hpath : name = old → names ≠ []) :
      renamedEntry parent old new ((placeUnder parent name).extend names) = id := by
    refine renamedEntry_other (fun heq => ?_) (parent_ne_below parent name names) new
    obtain ⟨hname, hnames⟩ := placeUnder_eq_extend_iff.mp heq.symm
    exact hpath hname hnames
  by_cases hname : name = new
  · have hfound := entry?_renamedUnder hdistinct hne (not_startsWith_placeUnder hne parent names)
    rw [moved_extend] at hfound
    rw [hname, if_pos rfl, hfound]
    by_cases hnames : names = []
    · subst hnames
      rw [Path.extend_nil]
      exact Option.map_congr fun entry _ =>
        (renamedEntry_self parent old new entry).trans (if_pos rfl).symm
    · simp [hnames, hother old fun _ => hnames]
  · rw [if_neg hname]
    by_cases hsame : name = old
    · rw [if_pos hsame, entry?, Keyed.get?_eq_none_iff, keys_renamedUnder hdistinct hne]
      intro hmem
      obtain ⟨key, -, hkey⟩ := List.mem_map.mp hmem
      exact not_moved_startsWith hne parent key (hkey ▸ placeUnder_startsWith_iff.mpr hsame)
    · have hpath := not_startsWith_placeUnder hname parent names
      have hfound := entry?_renamedUnder hdistinct hne hpath
      rw [moved_of_apart _ (not_startsWith_placeUnder hsame parent names),
        hother name fun heq => absurd heq hsame, Option.map_id, id] at hfound
      rw [if_neg hsame, hfound]

/-- As many entries are missing as were in the way. -/
theorem size_renamedUnder (hdistinct : Keyed.Distinct staging.entries) (hne : old ≠ new)
    (parent : Option Path) :
    (staging.renamedUnder parent old new).size + (staging.prune (placeUnder parent new)).1 =
      staging.size := by
  have hle := List.length_filter_le
    (fun entry : Path × Entry => !entry.1.startsWith (placeUnder parent new)) staging.entries
  rw [size, entries_renamedUnder hdistinct hne, List.length_map, prune, size]
  exact Nat.add_sub_cancel' hle

theorem listedUnder_renamedUnder (hdistinct : Keyed.Distinct staging.entries) (hne : old ≠ new) :
    (staging.renamedUnder parent old new).listedUnder parent =
      renamedNames old new (staging.listedUnder parent) := by
  cases parent with
  | none => rfl
  | some above =>
      have hoff : ¬ above.startsWith (placeUnder (some above) new) = true :=
        above.not_startsWith_child new
      have hfound := entry?_renamedUnder hdistinct hne hoff
      rw [moved_parent] at hfound
      rw [listedUnder, listedUnder, hfound]
      cases staging.entry? above <;> simp [renamedNames, Entry.renameFirst]

end Renaming

end TreePass.Staging
