import TreePass.Proofs.Staging.Carried
import TreePass.Proofs.Staging.Lookup

/-!
# What a build meets

A build starts at the declared roots and goes on from each entry that it finds to the
children that the entry lists. It meets the paths that it comes to in this way, be
there an entry or a gap. Nothing else that is staged, and no order in which anything
was staged, has a part in what is built.
-/

namespace TreePass.Staging

variable {staging other : Staging}

/-- The build of the staging area comes to the path, whether or not there is an entry. -/
inductive Meets (staging : Staging) : Path → Prop where
  | root {name : String} (declared : name ∈ staging.roots) : Meets staging (.single name)
  | child {parent : Path} {entry : Entry} {name : String} (parent_met : Meets staging parent)
      (staged : staging.entry? parent = some entry) (listed : name ∈ entry.children) :
      Meets staging (parent.child name)

/-- A path is met only below a root that is met. -/
theorem Meets.root_met {path : Path} (hmeets : staging.Meets path) :
    staging.Meets (.single path.root) := by
  induction hmeets with
  | root hdeclared => exact .root hdeclared
  | child _ _ _ ih => exact ih

/-! ## In which order paths are met -/

/-- The names that the entry at a path lists. A gap lists none. -/
def listedAt (staging : Staging) (path : Path) : List String :=
  (staging.entry? path).elim [] Entry.children

/-- The paths that a build meets from a path on, each before those below it, within a
number of levels. -/
def itineraryWithin (staging : Staging) : Nat → Path → List Path
  | 0, path => [path]
  | levels + 1, path =>
      path :: (staging.listedAt path).flatMap fun name =>
        staging.itineraryWithin levels (path.child name)

/-- The paths that a build meets, in pre-order. -/
def itinerary (staging : Staging) : List Path :=
  staging.roots.flatMap fun name => staging.itineraryWithin staging.height (.single name)

theorem mem_listedAt {path : Path} {name : String} :
    name ∈ staging.listedAt path ↔
      ∃ entry, staging.entry? path = some entry ∧ name ∈ entry.children := by
  rw [listedAt]
  cases staging.entry? path <;> simp

theorem mem_itineraryWithin_self (levels : Nat) (path : Path) :
    path ∈ staging.itineraryWithin levels path := by
  cases levels <;> exact List.mem_cons_self

theorem Meets.of_mem_itineraryWithin {levels : Nat} {path inner : Path}
    (hmeets : staging.Meets path) (hinner : inner ∈ staging.itineraryWithin levels path) :
    staging.Meets inner := by
  induction levels generalizing path with
  | zero => rwa [List.mem_singleton.mp hinner]
  | succ levels ih =>
      rcases List.mem_cons.mp hinner with rfl | hbelow
      · exact hmeets
      · obtain ⟨name, hname, hinner⟩ := List.mem_flatMap.mp hbelow
        obtain ⟨entry, hentry, hlisted⟩ := mem_listedAt.mp hname
        exact ih (.child hmeets hentry hlisted) hinner

/-- Within enough levels, the itinerary goes on to every listed child. -/
theorem mem_itineraryWithin_child {levels : Nat} {path inner : Path} {name : String}
    (hlevels : staging.height < levels + path.length)
    (hinner : inner ∈ staging.itineraryWithin levels path) (hname : name ∈ staging.listedAt inner) :
    inner.child name ∈ staging.itineraryWithin levels path := by
  induction levels generalizing path with
  | zero =>
      -- The path is longer than any that is registered, so that it lists nobody.
      obtain rfl := List.mem_singleton.mp hinner
      obtain ⟨entry, hentry, -⟩ := mem_listedAt.mp hname
      have hlength := length_le_height (contains_of_registered hentry)
      omega
  | succ levels ih =>
      refine List.mem_cons_of_mem _ (List.mem_flatMap.mpr ?_)
      rcases List.mem_cons.mp hinner with rfl | hbelow
      · exact ⟨name, hname, mem_itineraryWithin_self _ _⟩
      · obtain ⟨first, hfirst, hinner⟩ := List.mem_flatMap.mp hbelow
        have hbelow : staging.height < levels + (path.child first).length := by
          rw [Path.length_child]
          omega
        exact ⟨first, hfirst, ih hbelow hinner⟩

/-- The itinerary has exactly the paths that are met. -/
theorem mem_itinerary_iff {path : Path} : path ∈ staging.itinerary ↔ staging.Meets path := by
  constructor
  · intro hpath
    obtain ⟨name, hname, hpath⟩ := List.mem_flatMap.mp hpath
    exact Meets.of_mem_itineraryWithin (.root hname) hpath
  · intro hmeets
    induction hmeets with
    | @root name hdeclared =>
        exact List.mem_flatMap.mpr ⟨name, hdeclared, mem_itineraryWithin_self _ _⟩
    | child _ hstaged hlisted ih =>
        obtain ⟨root, hroot, hparent⟩ := List.mem_flatMap.mp ih
        refine List.mem_flatMap.mpr ⟨root, hroot, ?_⟩
        exact mem_itineraryWithin_child (Nat.lt_succ_self _) hparent
          (mem_listedAt.mpr ⟨_, hstaged, hlisted⟩)

/-! ## What is built depends on nothing else -/

/-- From a path in a region that a build does not leave, staging areas with the same
entries there are built alike. -/
theorem buildAt_congr {region : Path → Prop}
    (hagrees : ∀ path, region path → staging.entry? path = other.entry? path)
    (hchild : ∀ parent entry name, region parent → staging.entry? parent = some entry →
      name ∈ entry.children → region (parent.child name))
    (policy : MissingChild) {path : Path} (hpath : region path) :
    staging.buildAt policy path = other.buildAt policy path := by
  induction path using staging.induction_descent with
  | step path ih =>
      have hsame := hagrees path hpath
      cases hentry : staging.entry? path with
      | none =>
          rw [hentry] at hsame
          rw [buildAt, buildAt, hentry, ← hsame]
      | some entry =>
          rw [hentry] at hsame
          rw [buildAt_of_registered hentry, buildAt_of_registered hsame.symm]
          refine congrArg _ (funext fun members => ?_)
          refine congrArg (· >>= _) (mapM_congr fun name hname => ?_)
          have hbelow : region (path.child name) := hchild path entry name hpath hentry hname
          rw [contains_eq_isSome, contains_eq_isSome, ← hagrees _ hbelow, ← contains_eq_isSome]
          split
          next hregistered => rw [ih name hregistered hbelow]
          next => rfl

/-- The roots are the same in the same order, and at every path that the build of the
first staging area meets the second one has the same entry, or none as well. -/
structure AgreesWhereMet (staging other : Staging) : Prop where
  roots_eq : staging.roots = other.roots
  entry_eq : ∀ path, staging.Meets path → staging.entry? path = other.entry? path

namespace AgreesWhereMet

theorem contains_eq (hagrees : staging.AgreesWhereMet other) {path : Path}
    (hmeets : staging.Meets path) : staging.contains path = other.contains path := by
  rw [contains_eq_isSome, contains_eq_isSome, hagrees.entry_eq path hmeets]

/-- From a path that is met, both staging areas are built alike. -/
theorem buildAt_eq (hagrees : staging.AgreesWhereMet other) (policy : MissingChild)
    {path : Path} (hmeets : staging.Meets path) :
    staging.buildAt policy path = other.buildAt policy path :=
  buildAt_congr hagrees.entry_eq (fun _ _ _ => .child) policy hmeets

theorem buildRoot_eq (hagrees : staging.AgreesWhereMet other) (policy : MissingChild)
    {name : String} (hname : name ∈ staging.roots) :
    staging.buildRoot policy name = other.buildRoot policy name := by
  have hroot : staging.Meets (.single name) := .root hname
  unfold buildRoot
  rw [hagrees.contains_eq hroot, hagrees.buildAt_eq policy hroot]

end AgreesWhereMet

/-- Staging areas that agree where the build of the one comes to are built alike, as a
whole and at each path that is met. What else they hold, and in which order, makes no
difference. -/
theorem built_alike (hagrees : staging.AgreesWhereMet other) :
    (∀ policy, staging.build policy = other.build policy) ∧
      ∀ policy path, staging.Meets path →
        staging.buildNode policy path = other.buildNode policy path := by
  refine ⟨fun policy => ?_, fun policy path hmeets => ?_⟩
  · rw [build, build, ← hagrees.roots_eq]
    exact congrArg (· >>= _) (mapM_congr fun name hname => hagrees.buildRoot_eq policy hname)
  · rw [buildNode, buildNode, hagrees.contains_eq hmeets,
      hagrees.buildAt_eq policy hmeets.root_met]

/-- A root that lists a staged child and a gap. -/
def cleared : Staging :=
  (((empty.addRoot "a").addChild (.single "a") "b").2.declareChild (.single "a") "c").2

/-- The same, staged in another order among nodes below the gap and below a root that is
not declared. -/
def overgrown : Staging :=
  let strewn := ((empty.stageNode ⟨"a", ["c", "x"]⟩ (.named "x")).stageNode ⟨"a", ["b"]⟩
    (.named "b")).stageNode (.single "z") ((Node.named "z").withChild (.named "y"))
  (((strewn.addRoot "a").addChild (.single "a") "b").2.declareChild (.single "a") "c").2

theorem built_alike_overgrown :
    cleared.AgreesWhereMet overgrown ∧ cleared.Meets ⟨"a", ["c"]⟩ ∧
      Keyed.keys cleared.entries = [.single "a", ⟨"a", ["b"]⟩] ∧
      Keyed.keys overgrown.entries =
        [⟨"a", ["c", "x"]⟩, ⟨"a", ["b"]⟩, ⟨"z", ["y"]⟩, .single "z", .single "a"] ∧
      (∀ policy, cleared.build policy = overgrown.build policy) ∧
      ∀ policy,
        cleared.buildNode policy ⟨"a", ["c"]⟩ = overgrown.buildNode policy ⟨"a", ["c"]⟩ := by
  have hagrees : cleared.AgreesWhereMet overgrown := by
    refine ⟨rfl, fun path hmeets => ?_⟩
    have hall : ∀ path ∈ cleared.itinerary, cleared.entry? path = overgrown.entry? path := by
      decide
    exact hall path (mem_itinerary_iff.mpr hmeets)
  have hgap : cleared.Meets ⟨"a", ["c"]⟩ := mem_itinerary_iff.mp (by decide)
  obtain ⟨hbuild, hnode⟩ := built_alike hagrees
  exact ⟨hagrees, hgap, by decide, by decide, hbuild, fun policy => hnode policy _ hgap⟩

end TreePass.Staging
