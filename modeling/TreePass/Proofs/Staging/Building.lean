import TreePass.Proofs.Staging.Reachable

/-!
# Building what edits lead to

A build goes down from path to path, each one name longer than the one before and
registered, so that it needs no more levels than the longest registered path has
names. In a sound staging area it starts at registered paths as well. Then it never
misses an entry where it looks for one, and nothing stops it but two members of one
name or, if gaps are refused, a gap.
-/

namespace TreePass

/-- The faults that building a sound staging area may end in. -/
inductive BuildFault.MayArise : MissingChild → BuildFault → Prop where
  | memberClash (policy : MissingChild) (path : Path) (member : String) :
      MayArise policy (.duplicateMember path member)
  | gap (parent : Path) (child : String) : MayArise .refuse (.missingChild parent child)

namespace Staging

variable {staging : Staging}

/-! ## Builds within a number of levels -/

/-- Makes the node staged at a path if the build goes down no more levels than given.
Otherwise there is no answer. -/
def buildAtWithin (staging : Staging) (policy : MissingChild) :
    Nat → Path → ExceptT BuildFault Option Node
  | 0, _ => .mk none
  | levels + 1, path =>
      match staging.entry? path with
      | none => throw (.nodeNotFound path)
      | some entry => do
          let members ← liftExcept (buildMembers path entry.members)
          let children ← entry.children.mapM fun name => do
            let child ←
              if staging.contains (path.child name) then
                staging.buildAtWithin policy levels (path.child name)
              else liftExcept (buildGap policy path name)
            pure (name, child)
          pure ⟨entry.name, entry.documentation, entry.attributes, members,
            Keyed.ofList children, path⟩

/-- Makes the forest of all declared roots within a number of levels. -/
def buildWithin (staging : Staging) (policy : MissingChild) (levels : Nat) :
    ExceptT BuildFault Option Forest := do
  let roots ← staging.roots.mapM fun name =>
    if staging.contains (.single name) then staging.buildAtWithin policy levels (.single name)
    else liftExcept (staging.buildRoot policy name)
  pure (Forest.ofRoots roots)

section Lifting

variable {ε α β : Type}

theorem liftExcept_bind (answer : Except ε α) (f : α → Except ε β) :
    (liftExcept (answer >>= f) : ExceptT ε Option β) =
      liftExcept answer >>= fun value => liftExcept (f value) := by
  cases answer <;> rfl

theorem run_liftExcept (answer : Except ε α) :
    (liftExcept answer : ExceptT ε Option α).run = some answer := by
  cases answer <;> rfl

theorem mapM_liftExcept {f : α → ExceptT ε Option β} {g : α → Except ε β} {items : List α}
    (hf : ∀ item ∈ items, f item = liftExcept (g item)) :
    items.mapM f = liftExcept (items.mapM g) := by
  induction items with
  | nil => rfl
  | cons item rest ih =>
      obtain ⟨hitem, hrest⟩ := List.forall_mem_cons.mp hf
      rw [List.mapM_cons, List.mapM_cons, hitem, ih hrest, liftExcept_bind]
      refine congrArg _ (funext fun first => ?_)
      rw [liftExcept_bind]
      rfl

end Lifting

/-- From a registered path a build ends within as many levels as there are lengths from
its own to that of the longest registered path. -/
theorem buildAtWithin_eq (policy : MissingChild) {levels : Nat} {path : Path}
    (hcontains : staging.contains path = true) (hlevels : staging.height < levels + path.length) :
    staging.buildAtWithin policy levels path = liftExcept (staging.buildAt policy path) := by
  induction levels generalizing path with
  | zero =>
      have hlength := length_le_height hcontains
      omega
  | succ levels ih =>
      obtain ⟨entry, hentry⟩ := Option.isSome_iff_exists.mp hcontains
      rw [buildAtWithin, buildAt_of_registered hentry, entry?, hentry]
      dsimp only
      rw [liftExcept_bind]
      refine congrArg _ (funext fun members => ?_)
      rw [liftExcept_bind]
      refine congr (congrArg _ (mapM_liftExcept fun name _ => ?_)) rfl
      -- A listed child is registered one level further down, or it is a gap.
      split
      next hchild => rw [ih hchild (by rw [Path.length_child]; omega), liftExcept_bind]; rfl
      next => rw [liftExcept_bind]; rfl

/-- Building ends within as many levels as the longest registered path has names. -/
theorem buildWithin_eq (policy : MissingChild) {levels : Nat}
    (hlevels : staging.height ≤ levels) :
    (staging.buildWithin policy levels).run = some (staging.build policy) := by
  have hroots : staging.roots.mapM (fun name =>
      if staging.contains (.single name) then staging.buildAtWithin policy levels (.single name)
      else liftExcept (staging.buildRoot policy name)) =
      liftExcept (staging.roots.mapM (staging.buildRoot policy)) := by
    refine mapM_liftExcept fun name _ => ?_
    split
    next hcontains =>
      unfold buildRoot
      rw [if_pos hcontains]
      exact buildAtWithin_eq policy hcontains (Nat.lt_succ_of_le hlevels)
    next => rfl
  rw [buildWithin, hroots, build, ← run_liftExcept, liftExcept_bind]
  rfl

/-! ## Faults of a build -/

theorem mayArise_of_buildMembers {path : Path} {members : List Member} {fault : BuildFault}
    (policy : MissingChild) (hfault : buildMembers path members = .error fault) :
    fault.MayArise policy := by
  rw [buildMembers] at hfault
  split at hfault
  next name _ =>
    cases hfault
    exact .memberClash policy path name
  next => cases hfault

theorem mayArise_of_buildGap {policy : MissingChild} {parent : Path} {name : String}
    {fault : BuildFault} (hfault : buildGap policy parent name = .error fault) :
    fault.MayArise policy := by
  cases policy with
  | refuse =>
      cases hfault
      exact .gap parent name
  | fill => cases hfault

/-- From a registered path a build looks for no entry that is not there. -/
theorem mayArise_of_buildAt {policy : MissingChild} {path : Path} {fault : BuildFault}
    (hcontains : staging.contains path = true)
    (hfault : staging.buildAt policy path = .error fault) : fault.MayArise policy := by
  induction path using staging.induction_descent with
  | step path ih =>
      obtain ⟨entry, hentry⟩ := Option.isSome_iff_exists.mp hcontains
      rw [buildAt_of_registered hentry] at hfault
      rcases bind_eq_error.mp hfault with hmembers | ⟨members, -, hfault⟩
      · exact mayArise_of_buildMembers policy hmembers
      · rcases bind_eq_error.mp hfault with hchildren | ⟨children, -, hfault⟩
        · obtain ⟨name, -, hname⟩ := exists_of_mapM_error hchildren
          dsimp only at hname
          split at hname
          next hregistered =>
            rcases bind_eq_error.mp hname with hchild | ⟨child, -, hchild⟩
            · exact ih name hregistered hregistered hchild
            · cases hchild
          next =>
            rcases bind_eq_error.mp hname with hgap | ⟨child, -, hgap⟩
            · exact mayArise_of_buildGap hgap
            · cases hgap
        · cases hfault

theorem Sound.mayArise_of_build (hsound : staging.Sound) {policy : MissingChild}
    {fault : BuildFault} (hfault : staging.build policy = .error fault) :
    fault.MayArise policy := by
  rcases bind_eq_error.mp hfault with hroots | ⟨roots, -, hfault⟩
  · obtain ⟨name, hname, hroot⟩ := exists_of_mapM_error hroots
    unfold buildRoot at hroot
    rw [if_pos (hsound.root_staged name hname)] at hroot
    exact mayArise_of_buildAt (hsound.root_staged name hname) hroot
  · cases hfault

/-- Wherever edits lead, nothing is declared or listed twice and every declared root
has an entry; and then building ends, within as many levels as the longest registered
path has names, in a forest, at two members of one name or at a refused gap. -/
theorem Reachable.sound_and_built (hreachable : staging.Reachable) :
    (staging.roots.Nodup ∧ (∀ entry ∈ staging.entries, entry.2.children.Nodup) ∧
        ∀ root ∈ staging.roots, staging.contains (.single root) = true) ∧
      ∀ policy,
        (∀ levels, staging.height ≤ levels →
          (staging.buildWithin policy levels).run = some (staging.build policy)) ∧
        ∀ fault, staging.build policy = .error fault → fault.MayArise policy := by
  have hsound := hreachable.sound
  refine ⟨⟨hsound.roots_nodup, hsound.children_nodup, hsound.root_staged⟩, fun policy => ?_⟩
  exact ⟨fun levels hlevels => buildWithin_eq policy hlevels,
    fun fault hfault => hsound.mayArise_of_build hfault⟩

/-- Two roots, the first of which lists a child that is not staged, and a node under
another name staged in place of the second. -/
def crossed : Staging :=
  [Edit.addRoot "b", .stageNode (.single "b") ((Node.named "c").withChild (.named "d"))].foldl
    Edit.onStaging ((empty.addRoot "a").declareChild (.single "a") "x").2

/-- The first root takes the name of the second one, which goes with what was staged
in its place. -/
def uncrossed : Staging :=
  Edit.onStaging crossed (.renameNode (.single "a") "b")

theorem sound_and_built_uncrossed :
    uncrossed.Reachable ∧ uncrossed.roots = ["b"] ∧ uncrossed.contains (.single "b") = true ∧
      uncrossed.contains ⟨"b", ["d"]⟩ = false ∧
      (uncrossed.buildWithin .refuse 1).run = some (uncrossed.build .refuse) ∧
      uncrossed.build .refuse = .error (.missingChild (.single "b") "x") ∧
      BuildFault.MayArise .refuse (.missingChild (.single "b") "x") := by
  have hnode : ((Node.named "c").withChild (.named "d")).Distinct := by decide
  have hreachable : uncrossed.Reachable :=
    ((((Reachable.empty.edit (.addRoot "a") trivial).declareChild (.single "a") "x").edit
      (.addRoot "b") trivial).edit (.stageNode (.single "b") _) hnode).edit
      (.renameNode (.single "a") "b") trivial
  obtain ⟨⟨-, -, hstaged⟩, hbuilt⟩ := Reachable.sound_and_built hreachable
  have hwithin := (hbuilt .refuse).1 1 (by decide)
  have hfault : uncrossed.build .refuse = .error (.missingChild (.single "b") "x") :=
    Option.some.inj (hwithin.symm.trans rfl)
  exact ⟨hreachable, rfl, hstaged "b" (by decide), rfl, hwithin, hfault,
    (hbuilt .refuse).2 _ hfault⟩

end Staging

end TreePass
