import Mathlib.Data.List.Nodup
import TreePass.Proofs.Answer
import TreePass.Staging.Basic

/-!
# Plain trees

A plain tree is a name, the contents of a node, and the subtrees in order. It has
neither keys nor recorded paths: what a list of names leads to is found by going
down from name to name. Edits take place among siblings, which are the roots or
the children of one tree, and `alter` carries an edit of siblings to the place
where they are. The main statements say what is found after that: below the place
what the edit left there, and everywhere else what was found before.
-/

namespace TreePass

/-- A tree as it is edited directly. -/
structure Tree where
  name : String
  content : Content
  children : List Tree

namespace Tree

/-- The tree of a name with nothing in it. -/
def bare (name : String) : Tree := ⟨name, {}, []⟩

/-- The top of a tree as it is staged, with the names of its children. -/
def entry (tree : Tree) : Entry :=
  { tree.content with name := tree.name, children := tree.children.map name }

/-- The first of some siblings that has a name. -/
def named? (name : String) (trees : List Tree) : Option Tree :=
  trees.find? fun tree => tree.name == name

/-- The tree that names lead to from a tree. -/
def descend (tree : Tree) : List String → Option Tree
  | [] => some tree
  | name :: rest => (named? name tree.children).bind fun child => child.descend rest

/-- The tree that names lead to, the name of a root first. -/
def find? (trees : List Tree) : List String → Option Tree
  | [] => none
  | name :: rest => (named? name trees).bind fun tree => tree.descend rest

/-- The siblings at a place, which is the way to their parent; the roots are at the
empty place. -/
def siblings? (trees : List Tree) : List String → Option (List Tree)
  | [] => some trees
  | name :: rest => (named? name trees).bind fun tree => siblings? tree.children rest

/-! ## Edits of siblings -/

/-- Changes the siblings of a name. -/
def updateNamed (name : String) (f : Tree → Tree) (trees : List Tree) : List Tree :=
  trees.map fun tree => if tree.name = name then f tree else tree

/-- Puts a tree at the end unless there is one of its name. -/
def plant (tree : Tree) (trees : List Tree) : List Tree :=
  if tree.name ∈ trees.map Tree.name then trees else trees ++ [tree]

/-- Takes the tree of a name away, with everything in it. -/
def fell (name : String) (trees : List Tree) : List Tree :=
  trees.filter fun tree => tree.name != name

def setName (name : String) (tree : Tree) : Tree := { tree with name }

def setContent (f : Content → Content) (tree : Tree) : Tree :=
  { tree with content := f tree.content }

/-- Gives the tree `old` the name `new`, after the former bearer of that name is
taken away. Nothing happens without a tree `old`, nor if the names are equal. -/
def rename (old new : String) (trees : List Tree) : List Tree :=
  if old = new ∨ old ∉ trees.map Tree.name then trees
  else updateNamed old (setName new) (fell new trees)

def overChildren (f : List Tree → List Tree) (tree : Tree) : Tree :=
  { tree with children := f tree.children }

/-- Edits the siblings at a place. -/
def alter (f : List Tree → List Tree) : List String → List Tree → List Tree
  | [], trees => f trees
  | name :: rest, trees => updateNamed name (overChildren (alter f rest)) trees

/-! ## What is found among siblings -/

@[simp] theorem named?_nil (name : String) : named? name [] = none := rfl

theorem named?_cons (name : String) (tree : Tree) (rest : List Tree) :
    named? name (tree :: rest) = if tree.name = name then some tree else named? name rest := by
  by_cases hname : tree.name = name <;> simp [named?, hname]

theorem name_of_named? {name : String} {trees : List Tree} {tree : Tree}
    (hnamed : named? name trees = some tree) : tree.name = name := by
  simpa using List.find?_some hnamed

theorem named?_eq_none_iff {name : String} {trees : List Tree} :
    named? name trees = none ↔ name ∉ trees.map Tree.name := by
  simp [named?]

theorem named?_append (name : String) (trees others : List Tree) :
    named? name (trees ++ others) = (named? name trees).or (named? name others) :=
  List.find?_append

theorem named?_updateNamed {name : String} {f : Tree → Tree}
    (hf : ∀ tree, tree.name = name → (f tree).name = name) (other : String)
    (trees : List Tree) :
    named? other (updateNamed name f trees) =
      (named? other trees).map fun tree => if tree.name = name then f tree else tree := by
  induction trees with
  | nil => rfl
  | cons tree rest ih =>
      have hname : (if tree.name = name then f tree else tree).name = tree.name := by
        split
        next heq => rw [hf tree heq, heq]
        next => rfl
      rw [updateNamed, List.map_cons, named?_cons, named?_cons, hname]
      by_cases hother : tree.name = other
      · rw [if_pos hother, if_pos hother, Option.map_some]
      · rw [if_neg hother, if_neg hother]
        exact ih

theorem map_name_updateNamed {name : String} {f : Tree → Tree}
    (hf : ∀ tree, tree.name = name → (f tree).name = name) (trees : List Tree) :
    (updateNamed name f trees).map Tree.name = trees.map Tree.name := by
  rw [updateNamed, List.map_map]
  refine List.map_congr_left fun tree _ => ?_
  rw [Function.comp_apply]
  split
  next heq => rw [hf tree heq, heq]
  next => rfl

theorem named?_fell (name other : String) (trees : List Tree) :
    named? other (fell name trees) = if other = name then none else named? other trees := by
  induction trees with
  | nil => simp [fell]
  | cons tree rest ih =>
      rw [fell] at ih
      by_cases hname : tree.name = name
      · rw [fell, List.filter_cons_of_neg (by simp [hname]), ih, named?_cons, hname]
        by_cases hother : other = name
        · rw [if_pos hother, if_pos hother]
        · rw [if_neg hother, if_neg hother, if_neg (Ne.symm hother)]
      · rw [fell, List.filter_cons_of_pos (by simp [hname]), named?_cons, named?_cons, ih]
        by_cases hother : tree.name = other
        · rw [if_pos hother, if_pos hother, if_neg (hother ▸ hname)]
        · rw [if_neg hother, if_neg hother]

theorem map_name_fell (name : String) (trees : List Tree) :
    (fell name trees).map Tree.name = (trees.map Tree.name).filter fun other => other != name := by
  rw [fell, List.filter_map]
  rfl

theorem map_name_plant (tree : Tree) (trees : List Tree) :
    (plant tree trees).map Tree.name = Staging.declare tree.name (trees.map Tree.name) := by
  rw [plant, Staging.declare]
  by_cases hmem : tree.name ∈ trees.map Tree.name
  · rw [if_pos hmem, if_pos (by simpa using hmem)]
  · rw [if_neg hmem, if_neg (by simpa using hmem), List.map_append]
    rfl

theorem named?_plant (tree : Tree) (other : String) (trees : List Tree) :
    named? other (plant tree trees) =
      (named? other trees).or (if tree.name = other then some tree else none) := by
  rw [plant]
  split
  next hmem =>
    by_cases hother : tree.name = other
    · have hsome : named? other trees ≠ none :=
        fun hnone => named?_eq_none_iff.mp hnone (hother ▸ hmem)
      obtain ⟨found, hfound⟩ := Option.ne_none_iff_exists'.mp hsome
      rw [hfound, Option.some_or]
    · rw [if_neg hother, Option.or_none]
  next => rw [named?_append, named?_cons, named?_nil]

/-- Where nobody has the new name, the tree that gets it is the only one of that
name, and nobody has the old name any more. -/
theorem named?_updateNamed_setName {old new : String} (hne : old ≠ new) {trees : List Tree}
    (hnew : new ∉ trees.map Tree.name) (other : String) :
    named? other (updateNamed old (setName new) trees) =
      if other = new then (named? old trees).map (setName new)
      else if other = old then none else named? other trees := by
  induction trees with
  | nil => simp [updateNamed]
  | cons tree rest ih =>
      simp only [List.map_cons, List.mem_cons, not_or] at hnew
      have hrest := ih hnew.2
      rw [updateNamed] at hrest ⊢
      rw [List.map_cons, named?_cons, hrest, named?_cons, named?_cons]
      by_cases hold : tree.name = old
      · rw [if_pos hold, if_pos hold]
        by_cases hother : other = new
        · simp [setName, hother]
        · by_cases hsame : other = old
          · simp [setName, hsame, hne, Ne.symm hne]
          · simp [setName, hother, hsame, Ne.symm hother, hold, Ne.symm hsame]
      · rw [if_neg hold, if_neg hold]
        by_cases hother : other = new
        · rw [if_neg (hother ▸ Ne.symm hnew.1), if_pos hother, if_pos hother]
        · rw [if_neg hother, if_neg hother]
          by_cases hsame : other = old
          · rw [if_neg (hsame ▸ hold), if_pos hsame, if_pos hsame]
          · rw [if_neg hsame, if_neg hsame]

theorem named?_rename {old new : String} (hne : old ≠ new) {trees : List Tree}
    (hold : old ∈ trees.map Tree.name) (other : String) :
    named? other (rename old new trees) =
      if other = new then (named? old trees).map (setName new)
      else if other = old then none else named? other trees := by
  have hnew : new ∉ (fell new trees).map Tree.name := by simp [map_name_fell]
  rw [rename, if_neg (by simp [hne, hold]), named?_updateNamed_setName hne hnew, named?_fell,
    named?_fell, if_neg hne]
  split
  next => rfl
  next => rfl

theorem map_name_rename {old new : String} (hne : old ≠ new) {trees : List Tree}
    (hold : old ∈ trees.map Tree.name) :
    (rename old new trees).map Tree.name =
      ((trees.map Tree.name).filter fun other => other != new).map fun other =>
        if other = old then new else other := by
  rw [rename, if_neg (by simp [hne, hold]), ← map_name_fell, updateNamed, List.map_map,
    List.map_map]
  refine List.map_congr_left fun tree _ => ?_
  rw [Function.comp_apply, Function.comp_apply]
  split <;> rfl

/-! ## What is found after an edit -/

/-- What is staged where names lead to a tree. -/
def entryAt (trees : List Tree) (names : List String) : Option Entry :=
  (find? trees names).map entry

theorem entryAt_cons (trees : List Tree) (name : String) (names : List String) :
    entryAt trees (name :: names) = ((named? name trees).bind (·.descend names)).map entry := rfl

theorem entryAt_plant_bare (name other : String) (names : List String) (trees : List Tree) :
    entryAt (plant (bare name) trees) (other :: names) = (entryAt trees (other :: names)).or
      (if other = name ∧ names = [] then some (Entry.named name) else none) := by
  rw [entryAt_cons, entryAt_cons, named?_plant]
  cases hnamed : named? other trees with
  | none =>
      by_cases hother : name = other
      · cases names with
        | nil => simp [hother, descend, bare, entry, Entry.named]
        | cons next names => simp [hother, descend, bare]
      · simp [hother, bare, Ne.symm hother]
  | some tree =>
      cases names with
      | nil => simp [descend]
      | cons next names => simp

theorem entryAt_plant_of_not_mem (tree : Tree) (other : String) (names : List String)
    {trees : List Tree} (hnew : tree.name ∉ trees.map Tree.name) :
    entryAt (plant tree trees) (other :: names) =
      if tree.name = other then (tree.descend names).map entry
      else entryAt trees (other :: names) := by
  rw [entryAt_cons, entryAt_cons, named?_plant]
  by_cases hother : tree.name = other
  · rw [if_pos hother, if_pos hother, ← hother, named?_eq_none_iff.mpr hnew, Option.none_or,
      Option.bind_some]
  · rw [if_neg hother, if_neg hother, Option.or_none]

theorem entryAt_fell (name other : String) (names : List String) (trees : List Tree) :
    entryAt (fell name trees) (other :: names) =
      if other = name then none else entryAt trees (other :: names) := by
  rw [entryAt_cons, named?_fell]
  split <;> rfl

theorem entryAt_setContent (name : String) (f : Content → Content) (other : String)
    (names : List String) (trees : List Tree) :
    entryAt (updateNamed name (setContent f) trees) (other :: names) =
      if other = name ∧ names = [] then
        (entryAt trees (other :: names)).map fun entry => entry.withContent (f entry.toContent)
      else entryAt trees (other :: names) := by
  rw [entryAt_cons, entryAt_cons, named?_updateNamed (f := setContent f) fun _ hname => hname]
  cases hnamed : named? other trees with
  | none => simp
  | some tree =>
      have hname := name_of_named? hnamed
      by_cases hother : other = name
      · cases names with
        | nil => simp [hname, hother, descend, setContent, entry, Entry.withContent]
        | cons next names => simp [hname, hother, descend, setContent]
      · simp [hname, hother]

/-- Another tree in place of one of its name. -/
theorem entryAt_replace (tree : Tree) (other : String) (names : List String)
    {trees : List Tree} (hmem : tree.name ∈ trees.map Tree.name) :
    entryAt (updateNamed tree.name (fun _ => tree) trees) (other :: names) =
      if other = tree.name then (tree.descend names).map entry
      else entryAt trees (other :: names) := by
  rw [entryAt_cons, entryAt_cons, named?_updateNamed fun _ _ => rfl]
  by_cases hother : other = tree.name
  · have hsome : named? other trees ≠ none :=
      fun hnone => named?_eq_none_iff.mp hnone (hother ▸ hmem)
    obtain ⟨found, hfound⟩ := Option.ne_none_iff_exists'.mp hsome
    rw [hfound, Option.map_some, if_pos ((name_of_named? hfound).trans hother), if_pos hother]
    rfl
  · rw [if_neg hother]
    cases hfound : named? other trees with
    | none => rfl
    | some found =>
        have hname : found.name ≠ tree.name := fun heq => hother (name_of_named? hfound ▸ heq)
        rw [Option.map_some, if_neg hname]

theorem entryAt_rename {old new : String} (hne : old ≠ new) {trees : List Tree}
    (hold : old ∈ trees.map Tree.name) (other : String) (names : List String) :
    entryAt (rename old new trees) (other :: names) =
      if other = new then
        (entryAt trees (old :: names)).map fun entry =>
          if names = [] then { entry with name := new } else entry
      else if other = old then none else entryAt trees (other :: names) := by
  rw [entryAt_cons, named?_rename hne hold]
  by_cases hother : other = new
  · rw [if_pos hother, if_pos hother, entryAt_cons]
    cases hnamed : named? old trees with
    | none => rfl
    | some tree =>
        cases names with
        | nil => rfl
        | cons next names => simp [descend, setName]
  · rw [if_neg hother, if_neg hother]
    split <;> rfl

theorem find?_append_cons (trees : List Tree) (place : List String) (name : String)
    (rest : List String) :
    find? trees (place ++ name :: rest) =
      (siblings? trees place).bind fun siblings => find? siblings (name :: rest) := by
  induction place generalizing trees with
  | nil => rfl
  | cons first place ih =>
      rw [List.cons_append, find?, siblings?]
      cases named? first trees with
      | none => rfl
      | some tree =>
          rw [Option.bind_some, Option.bind_some, ← ih]
          cases place <;> rfl

theorem entryAt_append_cons (trees : List Tree) (place : List String) (name : String)
    (rest : List String) :
    entryAt trees (place ++ name :: rest) =
      (siblings? trees place).bind fun siblings => entryAt siblings (name :: rest) := by
  rw [entryAt, find?_append_cons, Option.map_bind]
  rfl

theorem siblings?_cons (trees : List Tree) (name : String) (rest : List String) :
    siblings? trees (name :: rest) = (find? trees (name :: rest)).map children := by
  induction rest generalizing trees name with
  | nil =>
      rw [siblings?, find?]
      cases named? name trees <;> rfl
  | cons next rest ih =>
      rw [siblings?, find?]
      cases named? name trees with
      | none => rfl
      | some tree => exact ih tree.children next

variable {f : List Tree → List Tree}

theorem named?_alter_cons (trees : List Tree) (name other : String) (place : List String) :
    named? other (alter f (name :: place) trees) = (named? other trees).map fun tree =>
      if tree.name = name then overChildren (alter f place) tree else tree :=
  named?_updateNamed (f := overChildren (alter f place)) (fun _ hname => hname) other trees

theorem siblings?_alter (trees : List Tree) (place : List String) :
    siblings? (alter f place trees) place = (siblings? trees place).map f := by
  induction place generalizing trees with
  | nil => rfl
  | cons name place ih =>
      rw [siblings?, siblings?, named?_alter_cons]
      cases hnamed : named? name trees with
      | none => rfl
      | some tree =>
          rw [Option.map_some, if_pos (name_of_named? hnamed), Option.bind_some,
            Option.bind_some]
          exact ih tree.children

theorem map_name_alter (trees : List Tree) (place : List String) :
    (alter f place trees).map Tree.name =
      if place = [] then (f trees).map Tree.name else trees.map Tree.name := by
  cases place with
  | nil => rfl
  | cons name place =>
      rw [if_neg (List.cons_ne_nil _ _)]
      exact map_name_updateNamed (f := overChildren (alter f place)) (fun _ hname => hname) trees

/-- Below the place of an edit one finds what the edit left there. -/
theorem entryAt_alter_below (trees : List Tree) (place : List String) (name : String)
    (rest : List String) :
    entryAt (alter f place trees) (place ++ name :: rest) =
      (siblings? trees place).bind fun siblings => entryAt (f siblings) (name :: rest) := by
  rw [entryAt_append_cons, siblings?_alter, Option.bind_map]
  rfl

/-- At the place itself the list of children has changed. -/
theorem entryAt_alter_at (trees : List Tree) (name : String) (place : List String) :
    entryAt (alter f (name :: place) trees) (name :: place) =
      (find? trees (name :: place)).map fun tree =>
        { tree.entry with children := (f tree.children).map Tree.name } := by
  induction place generalizing trees name with
  | nil =>
      rw [entryAt, find?, find?, named?_alter_cons]
      cases hnamed : named? name trees with
      | none => rfl
      | some tree =>
          rw [Option.map_some, if_pos (name_of_named? hnamed)]
          rfl
  | cons next place ih =>
      rw [entryAt, find?, find?, named?_alter_cons]
      cases hnamed : named? name trees with
      | none => rfl
      | some tree =>
          rw [Option.map_some, if_pos (name_of_named? hnamed), Option.bind_some,
            Option.bind_some]
          exact ih tree.children next

/-- Away from the place one finds what was there. -/
theorem entryAt_alter_off (trees : List Tree) {place names : List String}
    (hoff : ¬ place <+: names) : entryAt (alter f place trees) names = entryAt trees names := by
  induction place generalizing trees names with
  | nil => exact absurd (List.nil_prefix) hoff
  | cons name place ih =>
      cases names with
      | nil => rfl
      | cons first rest =>
          rw [entryAt, entryAt, find?, find?, named?_alter_cons]
          cases hnamed : named? first trees with
          | none => rfl
          | some tree =>
              rw [Option.map_some, Option.bind_some, Option.bind_some]
              by_cases hname : tree.name = name
              · rw [if_pos hname]
                have hfirst : first = name := (name_of_named? hnamed).symm.trans hname
                have hrest : ¬ place <+: rest := by
                  rwa [hfirst, List.prefix_cons_inj] at hoff
                cases rest with
                | nil =>
                    have hplace : place ≠ [] := fun heq => hrest (heq ▸ List.nil_prefix)
                    simp [descend, entry, overChildren, map_name_alter, hplace]
                | cons next rest => exact ih tree.children hrest
              · rw [if_neg hname]

end Tree

end TreePass
