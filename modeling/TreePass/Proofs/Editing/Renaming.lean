import TreePass.Proofs.Editing.Answers
import TreePass.Proofs.Staging.Reachable

/-!
# Renaming and renaming back

A renaming clears the place of the new name and moves what is registered at and below
the node to there. Nothing else is lost, and nothing at all if there was nothing to clear.
Then renaming the node back gives the staging area that was there before, down to the
order of its registry.
-/

namespace TreePass.Staging

open Rewriter (placeUnder)

variable {staging : Staging} {parent : Option Path} {old new : String}

/-! ## Renaming back -/

theorem Tidy.listedUnder_nodup (htidy : staging.Tidy) (parent : Option Path) :
    (staging.listedUnder parent).Nodup := by
  cases parent with
  | none => exact htidy.roots_nodup
  | some above =>
      cases hfound : staging.entry? above with
      | none => simp [listedUnder, hfound]
      | some entry =>
          simpa [listedUnder, hfound] using htidy.children_nodup _ (Keyed.mem_of_get? hfound)

theorem renamedNames_back (hne : old ≠ new) {names : List String} (hnodup : names.Nodup)
    (hnew : new ∉ names) : renamedNames new old (renamedNames old new names) = names := by
  have hkept : names.filter (fun name => name != new) = names :=
    List.filter_eq_self.mpr fun name hname => by simpa using ne_of_mem_of_not_mem hname hnew
  have hgone : (renamedNames old new names).filter (fun name => name != old) =
      renamedNames old new names := by
    apply List.filter_eq_self.mpr
    intro name hname
    rcases mem_renamedNames hnodup hname with rfl | ⟨-, hold, -⟩
    · simpa using hne.symm
    · simpa using hold
  have hthere : renamedNames old new names =
      names.map fun name => if name = old then new else name := by
    rw [renamedNames, hkept, renameFirst_of_nodup hnodup]
  have hback : renamedNames new old (renamedNames old new names) =
      (renamedNames old new names).map fun name => if name = new then old else name := by
    rw [renamedNames, hgone, renameFirst_of_nodup (nodup_renamedNames old new hnodup)]
  rw [hback, hthere, List.map_map]
  refine (List.map_congr_left fun name hname => ?_).trans (List.map_id names)
  have hother := ne_of_mem_of_not_mem hname hnew
  by_cases hold : name = old
  · simp [hold]
  · simp [hold, hother]

theorem renamedEntry_back (hne : old ≠ new) {key : Path} {entry : Entry}
    (hkey : ¬ key.startsWith (placeUnder parent new) = true)
    (hname : key = placeUnder parent old → entry.name = old)
    (hlist : parent = some key → entry.children.Nodup ∧ new ∉ entry.children) :
    renamedEntry parent new old (moved (placeUnder parent old) (placeUnder parent new) key)
      (renamedEntry parent old new key entry) = entry := by
  by_cases hself : key = placeUnder parent old
  · subst hself
    rw [moved_self, renamedEntry_self, renamedEntry_self, ← hname rfl]
  · by_cases hparent : parent = some key
    · subst hparent
      obtain ⟨hnodup, hnew⟩ := hlist rfl
      rw [moved_parent, renamedEntry_parent, renamedEntry_parent, renamedNames_back hne hnodup hnew]
    · rw [renamedEntry_other hself hparent,
        renamedEntry_other (mt (moved_eq_placeUnder_iff hne hkey).mp hself)
          (mt eq_some_moved_iff.mp hparent), id, id]

theorem roots_renamedUnder_back (hne : old ≠ new) (hnodup : staging.roots.Nodup)
    (hnew : new ∉ staging.listedUnder parent) :
    ((staging.renamedUnder parent old new).renamedUnder parent new old).roots = staging.roots := by
  rw [roots_renamedUnder]
  cases parent with
  | none => exact renamedNames_back hne hnodup hnew
  | some above => rfl

/-- Where the new name was free, renaming back restores roots and registry. -/
theorem renamedUnder_back (htidy : staging.Tidy) (hne : old ≠ new)
    (hfree : ¬ staging.Knows parent new)
    (hname : ∀ entry ∈ staging.entry? (placeUnder parent old), entry.name = old) :
    (staging.renamedUnder parent old new).renamedUnder parent new old = staging := by
  obtain ⟨hlisted, hstaged⟩ := not_or.mp hfree
  have hoff : ∀ key ∈ Keyed.keys staging.entries,
      ¬ key.startsWith (placeUnder parent new) = true :=
    fun key hkey hstarts => hstaged ⟨key, hkey, hstarts⟩
  have hthere := entries_renamedUnder htidy.distinct hne parent
  rw [prune_eq_self hoff] at hthere
  -- Nothing has to give way on the way back, since the old path has been left.
  have hleft : ((staging.renamedUnder parent old new).prune (placeUnder parent old)).2 =
      staging.renamedUnder parent old new := by
    apply prune_eq_self
    intro key hkey
    rw [keys_renamedUnder htidy.distinct hne] at hkey
    obtain ⟨other, -, rfl⟩ := List.mem_map.mp hkey
    exact not_moved_startsWith hne parent other
  have hentries : ((staging.renamedUnder parent old new).renamedUnder parent new old).entries =
      staging.entries := by
    rw [entries_renamedUnder (distinct_renamedUnder staging parent old new) hne.symm, hleft,
      hthere, List.map_map]
    refine (List.map_congr_left fun entry hentry => ?_).trans (List.map_id staging.entries)
    have hkey := hoff entry.1 (List.mem_map_of_mem hentry)
    have hfound : staging.entry? entry.1 = some entry.2 :=
      Keyed.get?_eq_some_of_mem htidy.distinct hentry
    refine Prod.ext (moved_back _ hkey) (renamedEntry_back hne hkey ?_ ?_)
    · intro hself
      exact hname entry.2 (hself ▸ hfound)
    · rintro rfl
      simp only [listedUnder, hfound] at hlisted
      exact ⟨htidy.children_nodup entry hentry, hlisted⟩
  exact congrArg₂ Staging.mk (roots_renamedUnder_back hne htidy.roots_nodup hlisted) hentries

/-- Renaming back restores a staging area exactly if the new name was free and the node
bore the name that its path ends in. -/
theorem renamedUnder_back_iff (htidy : staging.Tidy) (hne : old ≠ new) {entry : Entry}
    (hentry : staging.entry? (placeUnder parent old) = some entry) :
    (staging.renamedUnder parent old new).renamedUnder parent new old = staging ↔
      ¬ staging.Knows parent new ∧ entry.name = old := by
  have hdistinct := distinct_renamedUnder staging parent old new
  constructor
  · intro hback
    refine ⟨not_or.mpr ⟨fun hlisted => ?_, fun hstaged => ?_⟩, ?_⟩
    · have hnodup := nodup_renamedNames old new (htidy.listedUnder_nodup parent)
      rw [← hback, listedUnder_renamedUnder hdistinct hne.symm,
        listedUnder_renamedUnder htidy.distinct hne] at hlisted
      rcases mem_renamedNames hnodup hlisted with heq | ⟨-, hgone, -⟩
      · exact hne heq.symm
      · exact hgone rfl
    · have hcleared := prune_fst_pos_iff.mpr hstaged
      have hthere := size_renamedUnder htidy.distinct hne parent
      have hagain := size_renamedUnder hdistinct hne.symm parent
      rw [hback] at hagain
      omega
    · have hthere := entry?_renamedUnder htidy.distinct hne
        (placeUnder_startsWith_sibling hne parent)
      have hagain := entry?_renamedUnder hdistinct hne.symm
        (placeUnder_startsWith_sibling hne.symm parent)
      rw [moved_self, hentry] at hthere
      rw [moved_self, hthere, hback, hentry] at hagain
      simpa using congrArg Entry.name (Option.some.inj hagain)
  · rintro ⟨hfree, hname⟩
    refine renamedUnder_back htidy hne hfree fun found hfound => ?_
    rwa [← Option.some.inj (hentry.symm.trans hfound)]

/-! ## Renaming a node by its path -/

/-- What a staging area is beside another one in which the node at `path` has not moved to
`target` yet. Paths that were not in the way stay different, so that the registry holds
the same entries in the same order, save those that were in the way. -/
structure Carried (path target : Path) (before after : Staging) : Prop where
  apart : ∀ first second : Path, ¬ first.startsWith target = true →
    ¬ second.startsWith target = true →
    moved path target first = moved path target second → first = second
  entries_eq : after.entries = (before.prune target).2.entries.map fun entry =>
    (moved path target entry.1,
      renamedEntry path.parent.toOption path.leaf target.leaf entry.1 entry.2)
  found : ∀ key : Path, ¬ key.startsWith target = true →
    after.entry? (moved path target key) =
      (before.entry? key).map (renamedEntry path.parent.toOption path.leaf target.leaf key)
  size_eq : after.size + (before.prune target).1 = before.size
  roots_eq : after.roots =
    if path.isRoot then renamedNames path.leaf target.leaf before.roots else before.roots

@[simp] theorem toOption_parent_placeUnder (parent : Option Path) (name : String) :
    (placeUnder parent name).parent.toOption = parent := by
  cases parent with
  | none => rfl
  | some above => rw [placeUnder, Path.parent_child, Except.toOption]

theorem carried_renamedUnder (hdistinct : Keyed.Distinct staging.entries) (hne : old ≠ new)
    (parent : Option Path) :
    Carried (placeUnder parent old) (placeUnder parent new) staging
      (staging.renamedUnder parent old new) where
  apart := fun _ _ => moved_inj
  entries_eq := by
    rw [toOption_parent_placeUnder, leaf_placeUnder, leaf_placeUnder]
    exact entries_renamedUnder hdistinct hne parent
  found := by
    intro key hkey
    rw [toOption_parent_placeUnder, leaf_placeUnder, leaf_placeUnder]
    exact entry?_renamedUnder hdistinct hne hkey
  size_eq := size_renamedUnder hdistinct hne parent
  roots_eq := by
    rw [roots_renamedUnder, isRoot_placeUnder, leaf_placeUnder, leaf_placeUnder]
    cases parent <;> rfl

theorem contains_renamedUnder (hdistinct : Keyed.Distinct staging.entries) (hne : old ≠ new)
    (hcontains : staging.contains (placeUnder parent old) = true) :
    contains (staging.renamedUnder parent old new) (placeUnder parent new) = true := by
  have hfound := entry?_renamedUnder hdistinct hne (placeUnder_startsWith_sibling hne parent)
  rw [moved_self] at hfound
  rw [contains_eq_isSome, hfound, Option.isSome_map]
  exact hcontains

/-- Moving a path from below one place to below another can be undone and loses nothing,
and so it is for a whole registry. A renaming puts every entry that is not in its way
under a path of its own, and renaming back leads to the same staging area exactly if
nothing was listed or staged under the new name and the node bore the name that its path
ends in. Every staging area that can be reached is tidy. -/
theorem renaming_moves_subtree :
    (∀ path old new : Path, (path.rebase old new).isSome = path.startsWith old ∧
        ∀ moved ∈ path.rebase old new, Path.Rebased old new path moved) ∧
      (∀ (staging : Staging) (path : Path) (name : String),
        Keyed.Distinct staging.entries → staging.contains path = true → path.leaf ≠ name →
          (staging.renameNode path name).1 = some (path.withLeaf name) ∧
            Carried path (path.withLeaf name) staging (staging.renameNode path name).2) ∧
      ∀ (staging : Staging) (path : Path) (name : String) (entry : Entry),
        staging.Tidy → staging.entry? path = some entry →
          ((staging.renameNode path name).2.renameNode (path.withLeaf name) path.leaf =
              (some path, staging) ↔
            path.leaf = name ∨
              ¬ staging.Knows path.parent.toOption name ∧ entry.name = path.leaf) := by
  refine ⟨fun path old new => ⟨path.isSome_rebase old new, fun _ => Path.rebased_of_rebase⟩,
    ?_, ?_⟩
  · intro staging path name hdistinct hcontains hne
    obtain ⟨parent, hpath⟩ := exists_placeUnder path
    generalize path.leaf = old at hpath hne
    subst hpath
    rw [withLeaf_placeUnder, renameNode_eq hne hcontains]
    exact ⟨rfl, carried_renamedUnder hdistinct hne parent⟩
  · intro staging path name entry htidy hentry
    obtain ⟨parent, hpath⟩ := exists_placeUnder path
    generalize path.leaf = old at hpath
    subst hpath
    have hcontains : staging.contains (placeUnder parent old) = true := by
      rw [contains_eq_isSome, hentry, Option.isSome_some]
    rw [withLeaf_placeUnder, toOption_parent_placeUnder]
    by_cases hne : old = name
    · subst hne
      rw [renameNode_self hcontains, renameNode_self hcontains]
      exact iff_of_true rfl (.inl rfl)
    · rw [renameNode_eq hne hcontains,
        renameNode_eq (Ne.symm hne) (contains_renamedUnder htidy.distinct hne hcontains),
        Prod.mk.injEq, renamedUnder_back_iff htidy hne hentry]
      simp [hne]

/-- A root that lists a node and a gap. Below the node, and below a place beside it, there
is an entry that nobody lists. -/
def brambles : Staging :=
  ((((empty.addRoot "m").addChild (.single "m") "x").2.declareChild (.single "m") "gap").2.stageNode
    ⟨"m", ["x", "q", "r"]⟩ (.named "r")).stageNode ⟨"m", ["z", "w"]⟩ (.named "w")

theorem brambles_reachable : brambles.Reachable := by
  have hlisted := ((Reachable.empty.edit (.addRoot "m") trivial).edit
    (.addChild (.single "m") "x") trivial).declareChild (.single "m") "gap"
  have hbelow : (Node.named "r").Distinct := by decide
  have hbeside : (Node.named "w").Distinct := by decide
  exact (hlisted.edit (.stageNode ⟨"m", ["x", "q", "r"]⟩ (.named "r")) hbelow).edit
    (.stageNode ⟨"m", ["z", "w"]⟩ (.named "w")) hbeside

/-- The stray entry below the node goes with it and comes back; under the name that has a
stray entry the way back leads elsewhere. -/
theorem renaming_moves_subtree_brambles :
    Path.Rebased ⟨"m", ["x"]⟩ ⟨"m", ["y"]⟩ ⟨"m", ["x", "q", "r"]⟩ ⟨"m", ["y", "q", "r"]⟩ ∧
      Carried ⟨"m", ["x"]⟩ ⟨"m", ["z"]⟩ brambles (brambles.renameNode ⟨"m", ["x"]⟩ "z").2 ∧
      (brambles.renameNode ⟨"m", ["x"]⟩ "y").2.contains ⟨"m", ["y", "q", "r"]⟩ = true ∧
      (brambles.renameNode ⟨"m", ["x"]⟩ "y").2.renameNode ⟨"m", ["y"]⟩ "x" =
        (some ⟨"m", ["x"]⟩, brambles) ∧
      (brambles.renameNode ⟨"m", ["x"]⟩ "z").2.renameNode ⟨"m", ["z"]⟩ "x" ≠
        (some ⟨"m", ["x"]⟩, brambles) := by
  obtain ⟨hrebase, hcarried, hback⟩ := renaming_moves_subtree
  have htidy := brambles_reachable.sound.toTidy
  have hentry : brambles.entry? ⟨"m", ["x"]⟩ = some (.named "x") := by decide
  refine ⟨(hrebase _ _ _).2 _ (by decide), (hcarried brambles ⟨"m", ["x"]⟩ "z" htidy.distinct
    (by decide) (by decide)).2, by decide, ?_, ?_⟩
  · refine (hback brambles ⟨"m", ["x"]⟩ "y" _ htidy hentry).mpr (.inr ⟨?_, rfl⟩)
    exact not_or.mpr ⟨by decide, by decide⟩
  · refine mt (hback brambles ⟨"m", ["x"]⟩ "z" _ htidy hentry).mp ?_
    rintro (hsame | ⟨hfree, -⟩)
    · exact absurd hsame (by decide)
    · exact hfree (.inr ⟨⟨"m", ["z", "w"]⟩, by decide, by decide⟩)

end TreePass.Staging
