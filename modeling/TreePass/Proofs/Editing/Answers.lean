import TreePass.Plan
import TreePass.Proofs.Editing.Simulation

/-!
# What edits answer

Listing a child and taking something away answer whether there was anything to do. The
answers are put together from what the edit sees on its way: whether a name is listed,
and how long lists are before and after. What they come to is whether the staging area has
changed. To take a name away, declared or staged, leaves nothing of it and everything else
as it was, so that there is nothing to do a second time.
-/

namespace TreePass.Staging

open Rewriter (placeUnder)

variable {staging : Staging} {parent : Option Path} {name : String}

/-- The answer of an edit is true exactly if the staging area is another one afterwards. -/
def TellsChange (staging : Staging) (edited : Bool × Staging) : Prop :=
  edited.1 = true ↔ edited.2 ≠ staging

theorem tellsChange_declareChild (staging : Staging) (parent : Path) (name : String) :
    staging.TellsChange (staging.declareChild parent name) := by
  unfold TellsChange declareChild
  cases hentry : staging.entry? parent with
  | none => simp
  | some entry =>
      by_cases hlisted : entry.hasChild name = true
      · have hsame : staging.updateEntry parent (fun _ => entry) = staging :=
          updateEntry_eq_self fun found hfound => Option.some.inj (hentry.symm.trans hfound)
        simp [Entry.listChild, hlisted, hsame]
      · simp only [Entry.listChild, hlisted, Bool.false_eq_true, if_false, true_iff]
        intro hsame
        have hlonger := congrArg (fun after => after.entry? parent) hsame
        simp only [entry?_updateEntry, if_true, hentry, Option.map_some, Option.some.injEq]
          at hlonger
        simpa using congrArg Entry.children hlonger

/-! ## Names that are known below a parent -/

/-- The name is listed below the parent, or something is staged at its place or below. -/
def Knows (staging : Staging) (parent : Option Path) (name : String) : Prop :=
  name ∈ staging.listedUnder parent ∨
    ∃ path ∈ Keyed.keys staging.entries, path.startsWith (placeUnder parent name) = true

/-- A list of names is not changed by taking away what lies below one of them. -/
theorem listedUnder_prune (staging : Staging) (parent : Option Path) (name : String) :
    (staging.prune (placeUnder parent name)).2.listedUnder parent =
      staging.listedUnder parent := by
  cases parent with
  | none => rfl
  | some above =>
      simp only [listedUnder, entry?_prune, placeUnder]
      rw [if_neg (above.not_startsWith_child name)]

/-! ## Taking a name away -/

theorem removeChild_eq (staging : Staging) (parent : Path) (name : String) :
    staging.removeChild parent name = staging.removeNode (parent.child name) := by
  rw [removeNode, Path.parent_child, Path.leaf_child]

theorem removeNode_answer_iff :
    (staging.removeNode (placeUnder parent name)).1 = true ↔ staging.Knows parent name := by
  cases parent with
  | none =>
      have hfewer := List.length_filter_lt_length_iff_exists
        (p := fun root => root != name) (l := staging.roots)
      have hle := List.length_filter_le (fun root => root != name) staging.roots
      have hstruck : (staging.roots.filter fun root => root != name).length ≠
          staging.roots.length ↔ name ∈ staging.roots := by
        rw [← Nat.lt_iff_le_and_ne.trans (and_iff_right hle), hfewer]
        simp
      change (_ != _ || decide (_ > 0)) = true ↔ _
      rw [Bool.or_eq_true, bne_iff_ne, decide_eq_true_iff]
      exact or_congr hstruck prune_fst_pos_iff
  | some above =>
      have hlisted : ((staging.entry? above).any fun entry => entry.hasChild name) = true ↔
          name ∈ staging.listedUnder (some above) := by
        cases hentry : staging.entry? above <;> simp [listedUnder, hentry, Entry.hasChild]
      rw [placeUnder, ← removeChild_eq]
      change (_ || decide (_ > 0)) = true ↔ _
      rw [Bool.or_eq_true, decide_eq_true_iff]
      refine or_congr hlisted (prune_fst_pos_iff.trans ?_)
      rw [updateEntry, Keyed.keys_update, placeUnder]

/-- What has been taken away is not known any more. -/
theorem not_knows_removeNode (staging : Staging) (parent : Option Path) (name : String) :
    ¬ (staging.removeNode (placeUnder parent name)).2.Knows parent name := by
  rw [removeNode_eq, Knows, listedUnder_prune, listedUnder_relist _ _ rfl, keys_prune]
  simp

theorem removeNode_of_not_knows (hknows : ¬ staging.Knows parent name) :
    (staging.removeNode (placeUnder parent name)).2 = staging := by
  obtain ⟨hlisted, hstaged⟩ := not_or.mp hknows
  have hnames : (staging.listedUnder parent).filter (fun other => other != name) =
      staging.listedUnder parent := by
    apply List.filter_eq_self.mpr
    intro other hother
    simpa using ne_of_mem_of_not_mem hother hlisted
  rw [removeNode_eq, relist_eq_self hnames]
  exact prune_eq_self fun other hother hstarts => hstaged ⟨other, hother, hstarts⟩

theorem tellsChange_removeNode (staging : Staging) (path : Path) :
    staging.TellsChange (staging.removeNode path) := by
  obtain ⟨parent, hpath⟩ := exists_placeUnder path
  rw [hpath, TellsChange, removeNode_answer_iff]
  constructor
  · intro hknows hsame
    exact staging.not_knows_removeNode parent path.leaf (hsame.symm ▸ hknows)
  · exact not_imp_comm.mp removeNode_of_not_knows

/-! ## What is left -/

/-- What one staging area is beside another that has the node at a path still. -/
structure Without (path : Path) (before after : Staging) : Prop where
  unregistered : ∀ other : Path, other.startsWith path = true → after.contains other = false
  unlisted : ∀ parent entry, path.parent = .ok parent → after.entry? parent = some entry →
    path.leaf ∉ entry.children
  undeclared : path.isRoot = true → path.leaf ∉ after.roots
  kept : ∀ other : Path, ¬ other.startsWith path = true → path.parent ≠ .ok other →
    after.entry? other = before.entry? other
  parent_kept : ∀ parent, path.parent = .ok parent →
    after.entry? parent = (before.entry? parent).map fun entry =>
      { entry with children := entry.children.filter fun child => child != path.leaf }
  roots_kept : after.roots =
    if path.isRoot then before.roots.filter fun root => root != path.leaf else before.roots
  order_kept : Keyed.keys after.entries =
    (Keyed.keys before.entries).filter fun other => !other.startsWith path

theorem parent_placeUnder_eq_ok_iff {above : Path} :
    (placeUnder parent name).parent = .ok above ↔ parent = some above := by
  cases parent with
  | none => simp [placeUnder, Path.parent, Path.single]
  | some other => simp [placeUnder]

theorem isRoot_placeUnder (parent : Option Path) (name : String) :
    (placeUnder parent name).isRoot = parent.isNone := by
  cases parent <;> simp [placeUnder, Path.isRoot, Path.single, Path.child]

theorem without_removeNode (staging : Staging) (path : Path) :
    Without path staging (staging.removeNode path).2 := by
  obtain ⟨parent, hpath⟩ := exists_placeUnder path
  have hknows := staging.not_knows_removeNode parent path.leaf
  rw [← hpath] at hknows
  have hlisted := (not_or.mp hknows).1
  have hentry (other : Path) : entry? (staging.removeNode path).2 other =
      if other.startsWith path then none
      else entry? (staging.relist parent (·.filter fun other => other != path.leaf)) other := by
    rw [hpath, removeNode_eq, entry?_prune, leaf_placeUnder]
  have hparent (above : Path) : path.parent = .ok above ↔ parent = some above := by
    rw [hpath, parent_placeUnder_eq_ok_iff]
  have hroot : path.isRoot = parent.isNone := by
    rw [hpath, isRoot_placeUnder]
  constructor
  case unregistered =>
    intro other hstarts
    rw [contains_eq_isSome, hentry, if_pos hstarts, Option.isSome_none]
  case unlisted =>
    intro above entry habove hfound
    rw [(hparent above).mp habove] at hlisted
    simpa [listedUnder, hfound] using hlisted
  case undeclared =>
    intro htop
    rw [hroot, Option.isNone_iff_eq_none] at htop
    rwa [htop] at hlisted
  case kept =>
    intro other hoff habove
    rw [hentry, if_neg hoff, entry?_relist, if_neg (mt (hparent other).mpr habove)]
  case parent_kept =>
    intro above habove
    have hoff : ¬ above.startsWith path = true := by
      rw [hpath, (hparent above).mp habove]
      exact above.not_startsWith_child path.leaf
    rw [hentry, if_neg hoff, entry?_relist, if_pos ((hparent above).mp habove)]
  case roots_kept =>
    rw [hroot, hpath, removeNode_eq, leaf_placeUnder]
    cases parent <;> rfl
  case order_kept =>
    rw [hpath, removeNode_eq, keys_prune, keys_relist]

/-- Whatever is staged, edits tell the truth about what they do: listing a child, or taking
a child or a node away, is true exactly if it changes something; what is answered nothing
has changed nothing; and what has been taken away is gone, and nothing else. A pass that is
refused leaves a plan as it was. -/
theorem edits_tell_truth (staging : Staging) :
    (∀ parent name, staging.TellsChange (staging.declareChild parent name)) ∧
      (∀ parent name, staging.TellsChange (staging.removeChild parent name)) ∧
      (∀ path, staging.TellsChange (staging.removeNode path)) ∧
      (∀ parent name, (staging.addChild parent name).1 = false →
        (staging.addChild parent name).2 = staging) ∧
      (∀ path name, (staging.renameNode path name).1 = none →
        (staging.renameNode path name).2 = staging) ∧
      (∀ path, Without path staging (staging.removeNode path).2 ∧
        ((staging.removeNode path).2.removeNode path).1 = false) ∧
      ∀ (m : Type → Type) (plan : Plan m) (draft : PassDraft m) (fault : PassFault),
        (plan.addPass draft).1 = some fault → (plan.addPass draft).2 = plan := by
  refine ⟨staging.tellsChange_declareChild, ?_, staging.tellsChange_removeNode, ?_, ?_, ?_, ?_⟩
  · intro parent name
    rw [removeChild_eq]
    exact staging.tellsChange_removeNode _
  · intro parent name hnone
    unfold addChild at hnone ⊢
    split at hnone
    · cases hnone
    next hcontains => rw [if_neg hcontains]
  · intro path name hnone
    unfold renameNode at hnone ⊢
    split at hnone
    next hcontains => rw [if_pos hcontains]
    · dsimp only at hnone
      split at hnone <;> cases hnone
  · intro path
    refine ⟨staging.without_removeNode path, Bool.eq_false_iff.mpr ?_⟩
    obtain ⟨parent, hpath⟩ := exists_placeUnder path
    rw [hpath, Ne, removeNode_answer_iff]
    exact staging.not_knows_removeNode parent path.leaf
  · intro m plan draft fault hfault
    unfold Plan.addPass at hfault ⊢
    split at hfault
    next hreserved => rw [if_pos hreserved]
    next hfree =>
      rw [if_neg hfree]
      split at hfault
      next htaken => rw [if_pos htaken]
      · cases hfault

/-- A root that lists a child without an entry; a node is staged below another place that
nobody lists. -/
def littered : Staging :=
  ((empty.addRoot "a").declareChild (.single "a") "g").2.stageNode ⟨"a", ["z", "w"]⟩ (.named "w")

/-- A plan with one pass. -/
def onePass : Plan Id := (Plan.empty.addPass { name := "p" }).2

theorem edits_tell_truth_littered :
    (littered.removeNode ⟨"a", ["z"]⟩).1 = true ∧
      (littered.removeNode ⟨"a", ["z"]⟩).2 ≠ littered ∧
      (littered.removeNode ⟨"a", ["z"]⟩).2.contains ⟨"a", ["z", "w"]⟩ = false ∧
      ((littered.removeNode ⟨"a", ["z"]⟩).2.removeNode ⟨"a", ["z"]⟩).1 = false ∧
      (littered.removeChild (.single "q") "z").2 = littered ∧
      (littered.addChild (.single "q") "x").1 = false ∧
      (littered.addChild (.single "q") "x").2 = littered ∧
      (littered.renameNode ⟨"a", ["g"]⟩ "h").1 = none ∧
      (littered.renameNode ⟨"a", ["g"]⟩ "h").2 = littered ∧
      (onePass.addPass { name := "p" }).1 = some (.duplicatePass "p") ∧
      (onePass.addPass { name := "p" }).2 = onePass := by
  obtain ⟨-, hchild, hnode, hadd, hrename, hleft, hpass⟩ := edits_tell_truth littered
  have hnothing : ¬ (littered.removeChild (.single "q") "z").1 = true := by decide
  have hrefused : (onePass.addPass { name := "p" }).1 = some (.duplicatePass "p") := by decide
  exact ⟨by decide, (hnode ⟨"a", ["z"]⟩).mp (by decide),
    (hleft ⟨"a", ["z"]⟩).1.unregistered ⟨"a", ["z", "w"]⟩ (by decide), (hleft ⟨"a", ["z"]⟩).2,
    not_not.mp (mt (hchild (.single "q") "z").mpr hnothing), by decide, hadd _ _ (by decide),
    by decide, hrename _ _ (by decide), hrefused, hpass Id onePass _ _ hrefused⟩

end TreePass.Staging
