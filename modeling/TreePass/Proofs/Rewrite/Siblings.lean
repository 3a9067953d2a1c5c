import Mathlib.Data.List.Forall2
import TreePass.Proofs.Forest.Standing
import TreePass.Proofs.Rewrite.Order

/-!
# Siblings that come through

Siblings come through a walk if each of them does on its own and no two of the kept
ones have one name. What is left of them is then what is left of each, and what is
counted adds up.
-/

namespace TreePass

/-! ## Tallies that add up -/

namespace Tally

/-- What tallies come to together. -/
def total (tallies : List Tally) : Tally :=
  tallies.foldr merge zero

@[simp] theorem total_nil : total [] = zero := rfl

@[simp] theorem total_cons (tally : Tally) (rest : List Tally) :
    total (tally :: rest) = tally.merge (total rest) := rfl

/-- What is counted part by part is counted of the whole, where counts of parts add up. -/
theorem total_flatMap {α β : Type} {count : List β → Tally} (hnil : count [] = zero)
    (happend : ∀ items others, count (items ++ others) = (count items).merge (count others))
    (parts : α → List β) (wholes : List α) :
    total (wholes.map fun whole => count (parts whole)) = count (wholes.flatMap parts) := by
  induction wholes with
  | nil => exact hnil.symm
  | cons whole rest ih => rw [List.map_cons, total_cons, ih, List.flatMap_cons, happend]

end Tally

/-! ## Siblings -/

/-- A well placed forest that every rule gives back is left as it is. -/
theorem Forest.WellPlaced.settle_self {forest : Forest} (hforest : forest.WellPlaced)
    {steps : List PureStep} (hsteps : ∀ step ∈ steps, step.rule.onTree forest = .ok forest) :
    Walk.settle forest steps = .ok (forest, 0) :=
  Walk.settle_self (Forest.same_self hforest.distinct) hsteps

namespace Walk

variable {visit : List String → Node → Except Fault (Option Node × Tally)}

theorem filterMap_cons_toList {α β : Type} (f : α → Option β) (item : α) (rest : List α) :
    (item :: rest).filterMap f = (f item).toList ++ rest.filterMap f := by
  simp only [List.filterMap_eq_flatMap_toList, List.flatMap_cons]

/-- The names of a sibling that may be kept and of the later ones are new and different. -/
theorem names_toList_append {left : Option Node} {others : List Node} {taken : List String} :
    (((left.toList ++ others).map Node.name).Nodup ∧
        ∀ kept ∈ left.toList ++ others, kept.name ∉ taken) ↔
      (∀ kept ∈ left, kept.name ∉ taken) ∧ (others.map Node.name).Nodup ∧
        ∀ other ∈ others, other.name ∉ left.toList.map Node.name ++ taken := by
  cases left with
  | none => simp
  | some first =>
      simp only [Option.toList_some, List.singleton_append, List.map_cons, List.nodup_cons,
        List.mem_map, List.mem_cons, forall_eq_or_imp, List.map_nil, not_or,
        Option.mem_some_iff, forall_eq']
      constructor
      · rintro ⟨⟨hfirst, hnodup⟩, hnew, hothers⟩
        exact ⟨hnew, hnodup, fun other hother =>
          ⟨fun heq => hfirst ⟨other, hother, heq⟩, hothers other hother⟩⟩
      · rintro ⟨hnew, hnodup, hothers⟩
        exact ⟨⟨fun ⟨other, hother, heq⟩ => (hothers other hother).1 heq, hnodup⟩, hnew,
          fun other hother => (hothers other hother).2⟩

/-- Siblings come through exactly if each of them does on its own and the names of the
kept ones are new and different. -/
theorem siblings_eq_ok_iff (hvisit : MindsNames visit) {taken : List String}
    {nodes kept : List Node} {tally : Tally} :
    siblings visit taken nodes = .ok (kept, tally) ↔
      ∃ answers, List.Forall₂ (fun node answer => visit [] node = .ok answer) nodes answers ∧
        kept = answers.filterMap Prod.fst ∧ tally = Tally.total (answers.map Prod.snd) ∧
        (kept.map Node.name).Nodup ∧ ∀ node ∈ kept, node.name ∉ taken := by
  induction nodes generalizing taken kept tally with
  | nil =>
      simp only [siblings, Except.ok.injEq, Prod.mk.injEq, List.forall₂_nil_left_iff]
      constructor
      · rintro ⟨rfl, rfl⟩
        exact ⟨[], rfl, rfl, rfl, List.nodup_nil, by simp⟩
      · rintro ⟨_, rfl, rfl, rfl, -⟩
        exact ⟨rfl, rfl⟩
  | cons node rest ih =>
      rw [siblings_cons_eq_ok]
      constructor
      · rintro ⟨left, first, others, more, hleft, hothers, rfl, rfl⟩
        obtain ⟨halone, hnew⟩ := (hvisit taken node left first).mp hleft
        obtain ⟨answers, hanswers, rfl, rfl, hnames⟩ := ih.mp hothers
        exact ⟨(left, first) :: answers, .cons halone hanswers,
          (filterMap_cons_toList Prod.fst (left, first) answers).symm, rfl,
          names_toList_append.mpr ⟨hnew, hnames⟩⟩
      · rintro ⟨answers, hanswers, rfl, rfl, hnames⟩
        cases hanswers with
        | @cons _ answer _ answers halone hanswers =>
            rw [filterMap_cons_toList] at hnames ⊢
            obtain ⟨hnew, hnames⟩ := names_toList_append.mp hnames
            exact ⟨answer.1, answer.2, _, _, (hvisit taken node _ _).mpr ⟨halone, hnew⟩,
              ih.mpr ⟨answers, hanswers, rfl, rfl, hnames⟩, rfl, rfl⟩

/-- Siblings of which it is known what is left of each come through if no two of the
kept ones have one name. -/
theorem siblings_eq_ok (hvisit : MindsNames visit) {left : Node → Option Node}
    {count : Node → Tally} {nodes : List Node}
    (heach : ∀ node ∈ nodes, visit [] node = .ok (left node, count node))
    (hnames : ((nodes.filterMap left).map Node.name).Nodup) :
    siblings visit [] nodes = .ok (nodes.filterMap left, Tally.total (nodes.map count)) := by
  refine (siblings_eq_ok_iff hvisit).mpr
    ⟨nodes.map fun node => (left node, count node), ?_, ?_, ?_, hnames, by simp⟩
  · exact List.forall₂_map_right_iff.mpr (List.forall₂_same.mpr heach)
  · rw [List.filterMap_map]
    rfl
  · rw [List.map_map]
    rfl

/-- What is left of siblings is left of some of them. -/
theorem exists_of_mem_siblings {taken : List String} {nodes kept : List Node} {tally : Tally}
    (hsiblings : siblings visit taken nodes = .ok (kept, tally)) {left : Node}
    (hleft : left ∈ kept) :
    ∃ node ∈ nodes, ∃ taken tally, visit taken node = .ok (some left, tally) := by
  induction nodes generalizing taken kept tally with
  | nil =>
      cases hsiblings
      cases hleft
  | cons node rest ih =>
      obtain ⟨first, counted, others, more, hfirst, hothers, rfl, rfl⟩ :=
        siblings_cons_eq_ok.mp hsiblings
      rcases List.mem_append.mp hleft with hnow | hlater
      · rw [Option.mem_toList.mp hnow] at hfirst
        exact ⟨node, List.mem_cons_self, taken, counted, hfirst⟩
      · obtain ⟨source, hsource, hvisit⟩ := ih hothers hlater
        exact ⟨source, List.mem_cons_of_mem _ hsource, hvisit⟩

/-! ## Parts of a node -/

@[simp] theorem values_members_assemble (kept : Node) (path : Path) (members : List Member)
    (children : List Node) :
    Keyed.values (assemble kept path members children).members = members := by
  simp [assemble, Keyed.values, Function.comp_def]

@[simp] theorem values_children_assemble (kept : Node) (path : Path) (members : List Member)
    (children : List Node) :
    Keyed.values (assemble kept path members children).children = children := by
  simp [assemble, Keyed.values, Function.comp_def]

/-- Members of which it is known what is left of each are all seen to. -/
theorem fates_eq_ok {steps : List PureStep} {tree : Forest} {before kept : Node}
    {left : Member → Option Member} {members : List Member}
    (heach : ∀ member ∈ members, Rule.onMemberAll tree kept member
      (rulesFor steps tree (.member before member)) = .ok (left member)) :
    fates steps tree before kept members =
      .ok (members.map fun member => (member, left member)) := by
  induction members with
  | nil => rfl
  | cons member rest ih =>
      obtain ⟨hmember, hrest⟩ := List.forall_mem_cons.mp heach
      rw [fates, hmember, ih hrest]
      rfl

/-- What is left of members is left of some of them. -/
theorem exists_of_mem_fates {steps : List PureStep} {tree : Forest} {before kept : Node}
    {members : List Member} {found : List (Member × Option Member)}
    (hfates : fates steps tree before kept members = .ok found) {left : Member}
    (hleft : left ∈ found.filterMap Prod.snd) :
    ∃ member ∈ members, Rule.onMemberAll tree kept member
      (rulesFor steps tree (.member before member)) = .ok (some left) := by
  induction members generalizing found with
  | nil =>
      cases hfates
      cases hleft
  | cons member rest ih =>
      rw [fates] at hfates
      obtain ⟨first, hfirst, hfates⟩ := bind_eq_ok.mp hfates
      obtain ⟨others, hothers, hfates⟩ := bind_eq_ok.mp hfates
      cases hfates
      rw [filterMap_cons_toList] at hleft
      rcases List.mem_append.mp hleft with hnow | hlater
      · obtain rfl : first = some left := Option.mem_toList.mp hnow
        exact ⟨member, List.mem_cons_self, hfirst⟩
      · obtain ⟨source, hsource, hmember⟩ := ih hothers hlater
        exact ⟨source, List.mem_cons_of_mem _ hsource, hmember⟩

theorem filterMap_fates (left : Member → Option Member) (members : List Member) :
    (members.map fun member => (member, left member)).filterMap Prod.snd =
      members.filterMap left := by
  rw [List.filterMap_map]
  rfl

/-! ## Kept nodes -/

variable {steps : List PureStep} {tree : Forest}

/-- A kept node is what the rules left of it, with what is left of its members and of
its children. -/
theorem visit_kept {levels : Nat} {parent : Option Path} {taken : List String}
    {node left : Node} {tally : Tally}
    (hvisit : Walk.visit steps tree (levels + 1) parent taken node = .ok (some left, tally)) :
    ∃ kept found children below,
      Rule.onNodeAll tree node (rulesFor steps tree (.node node)) = .ok (some kept) ∧
      fates steps tree node kept (Keyed.values kept.members) = .ok found ∧
      siblings (Walk.visit steps tree levels (some (Rewriter.placeUnder parent kept.name))) []
        (Keyed.values kept.children) = .ok (children, below) ∧
      left = assemble kept (Rewriter.placeUnder parent kept.name) (found.filterMap Prod.snd)
        children := by
  rw [Walk.visit] at hvisit
  obtain ⟨answer, hanswer, hvisit⟩ := bind_eq_ok.mp hvisit
  cases answer with
  | none => cases hvisit
  | some kept =>
      dsimp only at hvisit
      split at hvisit
      next => cases hvisit
      next =>
        obtain ⟨found, hfound, hvisit⟩ := bind_eq_ok.mp hvisit
        obtain ⟨⟨children, below⟩, hchildren, hvisit⟩ := bind_eq_ok.mp hvisit
        cases hvisit
        exact ⟨kept, found, children, below, hanswer, hfound, hchildren, rfl⟩

/-- What is left of a node has the name that the rules left it. -/
theorem visit_name {levels : Nat} {parent : Option Path} {taken : List String}
    {node left : Node} {tally : Tally}
    (hvisit : Walk.visit steps tree levels parent taken node = .ok (some left, tally)) :
    ∃ kept, Rule.onNodeAll tree node (rulesFor steps tree (.node node)) = .ok (some kept) ∧
      left.name = kept.name := by
  cases levels with
  | zero => cases hvisit
  | succ levels =>
      obtain ⟨kept, found, children, below, hkept, -, -, rfl⟩ := visit_kept hvisit
      exact ⟨kept, hkept, rfl⟩

/-- What a visit leaves goes down no further than the visit. -/
theorem visit_deep {levels : Nat} {parent : Option Path} {taken : List String}
    {node left : Node} {tally : Tally}
    (hvisit : Walk.visit steps tree levels parent taken node = .ok (some left, tally)) :
    ∀ inner ∈ left.preorder,
      inner.depth < (Rewriter.placeUnder parent left.name).depth + levels := by
  induction levels generalizing parent taken node left tally with
  | zero => cases hvisit
  | succ levels ih =>
      obtain ⟨kept, found, children, below, -, -, hchildren, rfl⟩ := visit_kept hvisit
      intro inner hinner
      rw [Node.preorder_eq, values_children_assemble] at hinner
      rcases List.mem_cons.mp hinner with rfl | hinner
      · exact Nat.lt_add_of_pos_right levels.succ_pos
      · obtain ⟨child, hchild, hinner⟩ := List.mem_flatMap.mp hinner
        obtain ⟨source, -, taken, tally, hsource⟩ := exists_of_mem_siblings hchildren hchild
        have hdepth := ih hsource inner hinner
        have hbelow : (Rewriter.placeUnder (some (Rewriter.placeUnder parent kept.name))
            child.name).depth = (Rewriter.placeUnder parent kept.name).depth + 1 := by
          simp [Rewriter.placeUnder, Path.depth, Path.child]
        change inner.depth < (Rewriter.placeUnder parent kept.name).depth + (levels + 1)
        omega

end Walk

end TreePass
