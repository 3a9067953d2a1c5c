import TreePass.Proofs.Staging.Carried
import TreePass.Rewrite

/-!
# Walking a forest

The walk says directly what a rewrite makes of a forest, without a staging area:
each kept node is put together from what the walk leaves of its members and its
children. A walk needs to know of the rest of the forest only which names its
kept siblings have. It fails at the first fault that it meets; members of one
name are looked for in the end.

Rules are plain functions here. The walk is given the number of levels that it
may go down, and what it answers within them it answers within any greater
number.
-/

namespace TreePass

/-- A step whose rule is a plain function. -/
abbrev PureStep := Step (Except Fault)

namespace Walk

variable (steps : List PureStep) (tree : Forest)

/-- The rules of the steps that apply to a subject, in order. -/
def rulesFor (subject : Subject) : List (Rule (Except Fault)) :=
  (steps.filter fun step => step.admits tree subject).map Step.rule

/-- What the steps leave of a forest as a whole, each of them applied where it
applies to what the step before left, and how many of them changed it. -/
def settle (forest : Forest) : List PureStep → Except Fault (Forest × Nat)
  | [] => .ok (forest, 0)
  | step :: rest =>
      if step.admits forest .tree then do
        let next ← step.rule.onTree forest
        let (settled, changes) ← settle next rest
        pure (settled, changes + if next.same forest then 0 else 1)
      else settle forest rest

/-- What is left of each of some members of a kept node, beside the member
itself. Each is rewritten on its own; guards are asked about the node as it was before. -/
def fates (before kept : Node) : List Member → Except Fault (List (Member × Option Member))
  | [] => .ok []
  | member :: rest => do
      let left ← Rule.onMemberAll tree kept member (rulesFor steps tree (.member before member))
      let others ← fates before kept rest
      pure ((member, left) :: others)

/-- A kept node at its new path, with what is left of its members and children
under their own names. -/
def assemble (kept : Node) (path : Path) (members : List Member) (children : List Node) : Node :=
  ⟨kept.name, kept.documentation, kept.attributes,
    members.map fun member => (member.name, member),
    children.map fun child => (child.name, child), path⟩

def missing (names others : List String) : Nat :=
  names.countP fun name => name ∉ others

/-- What is counted at a kept node alone. -/
def tallyOf (before kept : Node) (fates : List (Member × Option Member)) : Tally where
  nodesVisited := 1
  nodesRenamed := if kept.name = before.name then 0 else 1
  childrenRemoved := missing before.childNames kept.childNames
  childrenAdded := missing kept.childNames before.childNames
  membersRemoved := missing before.memberNames kept.memberNames +
    fates.countP fun fate => fate.2.isNone
  membersAdded := missing kept.memberNames before.memberNames
  membersRewritten := fates.countP fun fate => fate.2.any fun left => left ≠ fate.1

/-- Walks siblings one after the other, where `visit` is told the names that the
siblings kept so far have. -/
def siblings (visit : List String → Node → Except Fault (Option Node × Tally)) :
    List String → List Node → Except Fault (List Node × Tally)
  | _, [] => .ok ([], .zero)
  | taken, node :: rest => do
      let (left, tally) ← visit taken node
      let (others, more) ← siblings visit (left.toList.map Node.name ++ taken) rest
      pure (left.toList ++ others, tally.merge more)

/-- Walks a node that comes after kept siblings of the names `taken`, and what is
below it if it is kept. -/
def visit : Nat → Option Path → List String → Node → Except Fault (Option Node × Tally)
  | 0, _, _, _ => .error .tooDeep
  | levels + 1, parent, taken, node => do
      match ← Rule.onNodeAll tree node (rulesFor steps tree (.node node)) with
      | none => pure (none, { nodesVisited := 1, nodesRemoved := 1 })
      | some kept =>
          let path := Rewriter.placeUnder parent kept.name
          if kept.name ∈ taken then .error (.build (.duplicateNode path))
          else do
            let fates ← fates steps tree node kept (Keyed.values kept.members)
            let (children, below) ←
              siblings (visit levels (some path)) [] (Keyed.values kept.children)
            pure (some (assemble kept path (fates.filterMap Prod.snd) children),
              (tallyOf node kept fates).merge below)

/-- What steps make of a forest: the steps on the forest as a whole, then the
walk, and then the look for members of one name. -/
def rewrite (levels : Nat) (forest : Forest) : Except Fault Outcome := do
  let (tree, changes) ← settle forest steps
  let (roots, tally) ← siblings (visit steps tree levels none) [] tree.roots
  match Forest.memberClash ⟨roots⟩ with
  | some fault => .error (.build fault)
  | none => pure { forest := ⟨roots⟩, tally := Tally.merge { treeRewrites := changes } tally }

variable {steps tree}

/-- A forest that every rule gives back is left as it is, and no step counts as a change. -/
theorem settle_self (htree : tree.same tree = true)
    (hsteps : ∀ step ∈ steps, step.rule.onTree tree = .ok tree) :
    settle tree steps = .ok (tree, 0) := by
  induction steps with
  | nil => rfl
  | cons step rest ih =>
      obtain ⟨hstep, hrest⟩ := List.forall_mem_cons.mp hsteps
      rw [settle]
      split
      next => simp [hstep, ih hrest, htree, pure, Except.pure]
      next => exact ih hrest

/-- Steps without guards all apply. -/
theorem rulesFor_of_unguarded (hguards : ∀ step ∈ steps, step.guard = none) (subject : Subject) :
    rulesFor steps tree subject = steps.map Step.rule := by
  rw [rulesFor, List.filter_eq_self.mpr fun step hstep => ?_]
  rw [Step.admits, hguards step hstep]

/-! ## What a walk leaves -/

theorem exists_of_mem_rulesFor {subject : Subject} {rule : Rule (Except Fault)}
    (hrule : rule ∈ rulesFor steps tree subject) :
    ∃ step ∈ steps, step.admits tree subject = true ∧ step.rule = rule := by
  obtain ⟨step, hstep, rfl⟩ := List.mem_map.mp hrule
  obtain ⟨hstep, hadmits⟩ := List.mem_filter.mp hstep
  exact ⟨step, hstep, hadmits, rfl⟩

/-- A removed node leaves nothing; a kept one has a new name among its siblings
and is put together from its children. -/
theorem visit_succ_eq_ok {levels : Nat} {parent : Option Path} {taken : List String}
    {node : Node} {left : Option Node} {tally : Tally}
    (hvisit : visit steps tree (levels + 1) parent taken node = .ok (left, tally)) :
    left = none ∨ ∃ kept members children below,
      kept.name ∉ taken ∧
      siblings (visit steps tree levels (some (Rewriter.placeUnder parent kept.name))) []
        (Keyed.values kept.children) = .ok (children, below) ∧
      left = some (assemble kept (Rewriter.placeUnder parent kept.name) members children) := by
  rw [visit] at hvisit
  obtain ⟨answer, -, hvisit⟩ := bind_eq_ok.mp hvisit
  cases answer with
  | none =>
      cases hvisit
      exact .inl rfl
  | some kept =>
      dsimp only at hvisit
      split at hvisit
      next => cases hvisit
      next hnew =>
        obtain ⟨fates, -, hvisit⟩ := bind_eq_ok.mp hvisit
        obtain ⟨⟨children, below⟩, hchildren, hvisit⟩ := bind_eq_ok.mp hvisit
        cases hvisit
        exact .inr ⟨kept, _, children, below, hnew, hchildren, rfl⟩

/-- Kept siblings are placed under different new names if each of them is. -/
theorem siblings_placed {parent : Option Path}
    {visit : List String → Node → Except Fault (Option Node × Tally)}
    (hvisit : ∀ taken node kept tally, visit taken node = .ok (some kept, tally) →
      kept.PlacedAt (Rewriter.placeUnder parent kept.name) ∧ kept.name ∉ taken)
    {taken : List String} {nodes kept : List Node} {tally : Tally}
    (hsiblings : siblings visit taken nodes = .ok (kept, tally)) :
    (∀ node ∈ kept, node.PlacedAt (Rewriter.placeUnder parent node.name)) ∧
      (kept.map Node.name).Nodup ∧ ∀ node ∈ kept, node.name ∉ taken := by
  induction nodes generalizing taken kept tally with
  | nil =>
      cases hsiblings
      simp
  | cons node rest ih =>
      rw [siblings] at hsiblings
      obtain ⟨⟨left, tally⟩, hleft, hsiblings⟩ := bind_eq_ok.mp hsiblings
      obtain ⟨⟨others, more⟩, hothers, hsiblings⟩ := bind_eq_ok.mp hsiblings
      cases hsiblings
      -- The later siblings were walked with the names of the earlier ones taken.
      obtain ⟨hplaced, hnodup, hnew⟩ := ih hothers
      cases left with
      | none => exact ⟨hplaced, hnodup, hnew⟩
      | some first =>
          obtain ⟨hfirst, hfresh⟩ := hvisit taken node first tally hleft
          have hother : ∀ other ∈ others, other.name ≠ first.name ∧ other.name ∉ taken := by
            simpa using hnew
          refine ⟨?_, ?_, ?_⟩
          · intro other hmem
            rcases List.mem_cons.mp hmem with rfl | hrest
            · exact hfirst
            · exact hplaced other hrest
          · refine List.nodup_cons.mpr ⟨fun hmem => ?_, hnodup⟩
            obtain ⟨other, hrest, heq⟩ := List.mem_map.mp hmem
            exact (hother other hrest).1 heq
          · intro other hmem
            rcases List.mem_cons.mp hmem with rfl | hrest
            · exact hfresh
            · exact (hother other hrest).2

/-- A node that is put together from placed children of different names is placed. -/
theorem assemble_placed {kept : Node} {path : Path} {members : List Member}
    {children : List Node} (hnodup : (children.map Node.name).Nodup)
    (hplaced : ∀ child ∈ children, child.PlacedAt (path.child child.name)) :
    (assemble kept path members children).PlacedAt path := by
  refine .intro rfl ?_ ?_ ?_ ?_
  · intro entry hentry
    obtain ⟨member, _, rfl⟩ := List.mem_map.mp hentry
    rfl
  · intro entry hentry
    obtain ⟨child, _, rfl⟩ := List.mem_map.mp hentry
    rfl
  · simpa [Keyed.Distinct, Keyed.keys, assemble, Function.comp_def] using hnodup
  · intro entry hentry
    obtain ⟨child, hchild, rfl⟩ := List.mem_map.mp hentry
    exact hplaced child hchild

theorem visit_placed {levels : Nat} {parent : Option Path} {taken : List String}
    {node kept : Node} {tally : Tally}
    (hvisit : visit steps tree levels parent taken node = .ok (some kept, tally)) :
    kept.PlacedAt (Rewriter.placeUnder parent kept.name) ∧ kept.name ∉ taken := by
  induction levels generalizing parent taken node kept tally with
  | zero => cases hvisit
  | succ levels ih =>
      rcases visit_succ_eq_ok hvisit with hnone | ⟨folded, members, children, below, hrest⟩
      · cases hnone
      · obtain ⟨hnew, hchildren, heq⟩ := hrest
        cases heq
        obtain ⟨hplaced, hnodup, -⟩ :=
          siblings_placed (fun taken node kept tally h => ih h) hchildren
        exact ⟨assemble_placed hnodup hplaced, hnew⟩

/-! ## More levels -/

/-- The second answer is the first one, unless that came of a lack of levels. -/
def Keeps {α : Type} (answer more : Except Fault α) : Prop :=
  answer ≠ .error .tooDeep → more = answer

theorem Keeps.refl {α : Type} (answer : Except Fault α) : Keeps answer answer :=
  fun _ => rfl

theorem Keeps.bind {α β : Type} {answer more : Except Fault α} {f g : α → Except Fault β}
    (hanswer : Keeps answer more) (hnext : ∀ value, Keeps (f value) (g value)) :
    Keeps (answer >>= f) (more >>= g) := by
  intro hends
  cases answer with
  | error fault =>
      have hmore : more = .error fault :=
        hanswer fun heq => hends (by rw [Except.error.inj heq, error_bind])
      rw [hmore, error_bind, error_bind]
  | ok value =>
      have hmore : more = .ok value := hanswer (by simp)
      rw [hmore, ok_bind, ok_bind]
      exact hnext value hends

theorem siblings_keeps {visit more : List String → Node → Except Fault (Option Node × Tally)}
    (hmore : ∀ taken node, Keeps (visit taken node) (more taken node))
    (taken : List String) (nodes : List Node) :
    Keeps (siblings visit taken nodes) (siblings more taken nodes) := by
  induction nodes generalizing taken with
  | nil => exact .refl _
  | cons node rest ih =>
      rw [siblings, siblings]
      refine (hmore taken node).bind fun answer => ?_
      exact (ih _).bind fun _ => .refl _

theorem visit_keeps {levels more : Nat} (hle : levels ≤ more) (parent : Option Path)
    (taken : List String) (node : Node) :
    Keeps (visit steps tree levels parent taken node)
      (visit steps tree more parent taken node) := by
  induction levels generalizing more parent taken node with
  | zero => exact fun hends => absurd rfl hends
  | succ levels ih =>
      obtain ⟨more, rfl⟩ := Nat.exists_eq_add_of_le' (Nat.lt_of_lt_of_le levels.succ_pos hle)
      rw [visit, visit]
      refine (Keeps.refl _).bind fun answer => ?_
      cases answer with
      | none => exact .refl _
      | some kept =>
          dsimp only
          split
          next => exact .refl _
          next =>
            -- Only the children are walked within the levels that are left.
            refine (Keeps.refl _).bind fun fates => ?_
            refine (siblings_keeps ?_ _ _).bind fun _ => .refl _
            exact fun taken node => ih (Nat.le_of_succ_le_succ hle) _ taken node

theorem rewrite_keeps {levels more : Nat} (hle : levels ≤ more) (forest : Forest) :
    Keeps (rewrite steps levels forest) (rewrite steps more forest) := by
  rw [rewrite, rewrite]
  refine (Keeps.refl _).bind fun settled => ?_
  exact (siblings_keeps (visit_keeps hle none) _ _).bind fun _ => .refl _

end Walk

end TreePass
