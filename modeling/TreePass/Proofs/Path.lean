import TreePass.Path

/-!
# Laws of paths

A path is determined by its names. Paths below different children of one place
are never in each other's way: what starts with the one does not start with the
other. What starts with a path goes on from it by further names, and going on
from another path by the same names is what rebasing does.
-/

namespace TreePass.Path

theorem eq_of_segments {path other : Path} (heq : path.segments = other.segments) :
    path = other := by
  cases path
  cases other
  cases heq
  rfl

@[simp] theorem leaf_child (path : Path) (name : String) : (path.child name).leaf = name := by
  simp [leaf, child, List.getLastD_eq_getLast?]

@[simp] theorem parent_child (path : Path) (name : String) :
    (path.child name).parent = .ok path := by
  cases hrest : path.rest ++ [name] with
  | nil => simp at hrest
  | cons first others =>
      simp only [child, parent, hrest]
      rw [← hrest, List.dropLast_concat]

@[simp] theorem withLeaf_child (path : Path) (name other : String) :
    (path.child name).withLeaf other = path.child other := by
  cases hrest : path.rest ++ [name] with
  | nil => simp at hrest
  | cons first others =>
      simp only [child, withLeaf, hrest]
      rw [← hrest, List.dropLast_concat]

/-- A path is a single name or lies below another path. -/
theorem single_or_child (path : Path) :
    path = single path.leaf ∨ ∃ parent, path = child parent path.leaf := by
  obtain ⟨root, rest⟩ := path
  rcases List.eq_nil_or_concat rest with rfl | ⟨above, name, rfl⟩
  · exact .inl rfl
  · refine .inr ⟨⟨root, above⟩, ?_⟩
    simp [leaf, child, List.getLastD_eq_getLast?]

theorem startsWith_iff {path ancestor : Path} :
    path.startsWith ancestor = true ↔ ancestor.segments <+: path.segments :=
  List.isPrefixOf_iff_prefix

theorem startsWith_refl (path : Path) : path.startsWith path = true :=
  startsWith_iff.mpr List.prefix_rfl

theorem startsWith_trans {path middle ancestor : Path}
    (hpath : path.startsWith middle = true) (hmiddle : middle.startsWith ancestor = true) :
    path.startsWith ancestor = true :=
  startsWith_iff.mpr ((startsWith_iff.mp hmiddle).trans (startsWith_iff.mp hpath))

theorem child_startsWith (path : Path) (name : String) :
    (path.child name).startsWith path = true :=
  startsWith_iff.mpr ⟨[name], (segments_child path name).symm⟩

/-- A path does not lie below its own children. -/
theorem not_startsWith_child (path : Path) (name : String) :
    ¬ path.startsWith (path.child name) = true := by
  intro hstarts
  have hlength := (startsWith_iff.mp hstarts).length_le
  rw [segments_child, List.length_append, List.length_singleton] at hlength
  omega

/-- Extensions of one list by different names have no common extension. -/
theorem name_eq_of_prefix {above path : List String} {name other : String}
    (hname : above ++ [name] <+: path) (hother : above ++ [other] <+: path) : name = other := by
  have hprefix := List.prefix_of_prefix_length_le hname hother (by simp)
  have heq := hprefix.eq_of_length (by simp)
  simpa using heq

theorem child_name_eq {path parent : Path} {name other : String}
    (hname : path.startsWith (parent.child name) = true)
    (hother : path.startsWith (parent.child other) = true) : name = other := by
  rw [startsWith_iff, segments_child] at hname hother
  exact name_eq_of_prefix hname hother

theorem single_name_eq {path : Path} {name other : String}
    (hname : path.startsWith (single name) = true)
    (hother : path.startsWith (single other) = true) : name = other := by
  rw [startsWith_iff, segments_single] at hname hother
  rw [← List.nil_append [name]] at hname
  rw [← List.nil_append [other]] at hother
  exact name_eq_of_prefix hname hother

/-- The path that goes on from a path by further names. -/
def extend (path : Path) (names : List String) : Path :=
  ⟨path.root, path.rest ++ names⟩

@[simp] theorem segments_extend (path : Path) (names : List String) :
    (path.extend names).segments = path.segments ++ names := rfl

@[simp] theorem extend_nil (path : Path) : path.extend [] = path := by
  simp [extend]

@[simp] theorem extend_child (path : Path) (name : String) (names : List String) :
    (path.child name).extend names = path.extend (name :: names) := by
  simp [extend, child]

theorem extend_inj {path : Path} {names others : List String} :
    path.extend names = path.extend others ↔ names = others := by
  simp [extend]

theorem startsWith_iff_extend {path ancestor : Path} :
    path.startsWith ancestor = true ↔ ∃ names, path = ancestor.extend names := by
  rw [startsWith_iff]
  constructor
  · rintro ⟨names, hnames⟩
    exact ⟨names, eq_of_segments hnames.symm⟩
  · rintro ⟨names, rfl⟩
    exact ⟨names, rfl⟩

theorem extend_startsWith (path : Path) (names : List String) :
    (path.extend names).startsWith path = true :=
  startsWith_iff_extend.mpr ⟨names, rfl⟩

/-- The path down to so many names below the root. -/
def upTo (path : Path) (count : Nat) : Path :=
  ⟨path.root, path.rest.take count⟩

@[simp] theorem segments_upTo (path : Path) (count : Nat) :
    (path.upTo count).segments = path.segments.take (count + 1) := rfl

@[simp] theorem upTo_length_rest (path : Path) : path.upTo path.rest.length = path := by
  simp [upTo]

theorem upTo_succ {path : Path} {count : Nat} (hcount : count < path.rest.length) :
    path.upTo (count + 1) = (path.upTo count).child path.rest[count] := by
  rw [upTo, List.take_succ_eq_append_getElem hcount]
  rfl

@[simp] theorem rebase_extend (old new : Path) (names : List String) :
    (old.extend names).rebase old new = some (new.extend names) := by
  rw [rebase, if_pos (old.extend_startsWith names), segments_extend, ← length_segments,
    List.drop_left]
  rfl

theorem rebase_of_apart {path old : Path} (new : Path)
    (hapart : ¬ path.startsWith old = true) : path.rebase old new = none := by
  rw [rebase, if_neg hapart]

@[simp] theorem length_extend (path : Path) (names : List String) :
    (path.extend names).length = path.length + names.length := by
  rw [← length_segments, segments_extend, List.length_append, length_segments]

/-- Below one place, paths start with each other as the names do by which they go on. -/
theorem extend_startsWith_extend {path : Path} {names others : List String} :
    (path.extend names).startsWith (path.extend others) = true ↔ others <+: names := by
  rw [startsWith_iff, segments_extend, segments_extend, List.prefix_append_right_inj]

theorem isSome_rebase (path old new : Path) :
    (path.rebase old new).isSome = path.startsWith old := by
  rw [rebase]
  cases path.startsWith old <;> rfl

/-- What is moved goes on from the new path by the names by which it went on from the
old one. -/
theorem rebase_eq_some_iff {path old new moved : Path} :
    path.rebase old new = some moved ↔
      ∃ names, path = old.extend names ∧ moved = new.extend names := by
  constructor
  · intro hmoved
    have hstarts : path.startsWith old = true := by
      rw [← isSome_rebase path old new, hmoved, Option.isSome_some]
    obtain ⟨names, rfl⟩ := startsWith_iff_extend.mp hstarts
    rw [rebase_extend] at hmoved
    exact ⟨names, rfl, (Option.some.inj hmoved).symm⟩
  · rintro ⟨names, rfl, rfl⟩
    exact rebase_extend old new names

/-- A path below `new` that lies there as another one lies below `old`. It can be moved
back, and on to anywhere as if it had not been moved before; and what is above the one
and not above `old` has been moved to above the other. -/
structure Rebased (old new path moved : Path) : Prop where
  startsWith_new : moved.startsWith new = true
  length_le : old.length ≤ path.length
  length_eq : moved.length = path.length - old.length + new.length
  back : moved.rebase new old = some path
  onward : ∀ further, moved.rebase new further = path.rebase old further
  ancestors : ∀ ancestor : Path, ancestor.startsWith old = true →
    ∃ kept, ancestor.rebase old new = some kept ∧
      (path.startsWith ancestor = true ↔ moved.startsWith kept = true)

theorem rebased_extend (old new : Path) (names : List String) :
    Rebased old new (old.extend names) (new.extend names) where
  startsWith_new := new.extend_startsWith names
  length_le := by
    rw [length_extend]
    exact Nat.le_add_right _ _
  length_eq := by
    rw [length_extend, length_extend, Nat.add_sub_cancel_left, Nat.add_comm]
  back := rebase_extend new old names
  onward := fun further => by rw [rebase_extend, rebase_extend]
  ancestors := by
    intro ancestor hancestor
    obtain ⟨others, rfl⟩ := startsWith_iff_extend.mp hancestor
    refine ⟨new.extend others, rebase_extend old new others, ?_⟩
    rw [extend_startsWith_extend, extend_startsWith_extend]

theorem rebased_of_rebase {path old new moved : Path} (hmoved : path.rebase old new = some moved) :
    Rebased old new path moved := by
  obtain ⟨names, rfl, rfl⟩ := rebase_eq_some_iff.mp hmoved
  exact rebased_extend old new names

end TreePass.Path
