import Mathlib.Data.List.Forall2
import TreePass.Proofs.Work

/-!
# Rewrites in two monads

A rewrite goes through a forest in the same way whatever work its rules do: it only
puts their work in sequence, and raises faults. So a relation between two kinds of work
holds of two rewrites if it holds of their rules, and if plain values, faults and
sequences respect it. Equality is such a relation, and so is that work with effects
shows an answer.
-/

namespace TreePass

/-- A relation between the work of two monads that plain values, faults and sequences
respect. -/
structure Correspondence (m n : Type → Type) [Monad m] [MonadExceptOf Fault m] [Monad n]
    [MonadExceptOf Fault n] where
  rel {α : Type} (work : m α) (other : n α) : Prop
  ofPure {α : Type} (value : α) : rel (pure value) (pure value)
  ofThrow {α : Type} (fault : Fault) : rel (throw fault : m α) (throw fault)
  ofBind {α β : Type} {work : m α} {other : n α} {next : α → m β} {further : α → n β}
    (hwork : rel work other) (hnext : ∀ value, rel (next value) (further value)) :
    rel (work >>= next) (other >>= further)

variable {m n : Type → Type} [Monad m] [MonadExceptOf Fault m] [Monad n] [MonadExceptOf Fault n]

namespace Correspondence

/-- Work corresponds to the same work. -/
def same (m : Type → Type) [Monad m] [MonadExceptOf Fault m] : Correspondence m m where
  rel work other := work = other
  ofPure _ := rfl
  ofThrow _ := rfl
  ofBind hwork hnext := by rw [hwork, funext hnext]

/-- Work with effects corresponds to the answer that it shows. -/
def shown (σ : Type) : Correspondence (Work σ) (Except Fault) where
  rel work answer := Shows work answer
  ofPure value := .pure value
  ofThrow fault := .throw fault
  ofBind hwork hnext := hwork.bind hnext

variable (R : Correspondence m n) {α β : Type}

/-- A fault that may be raised before the rest. -/
theorem ofThrowIf (condition : Prop) [Decidable condition] (fault : Fault) {rest : PUnit → m α}
    {others : PUnit → n α} (hrest : ∀ go, R.rel (rest go) (others go)) :
    R.rel (if condition then throw fault >>= rest else rest ⟨⟩)
      (if condition then throw fault >>= others else others ⟨⟩) := by
  split
  next => exact R.ofBind (R.ofThrow fault) hrest
  next => exact hrest ⟨⟩

theorem foldlM {f : β → α → m β} {g : β → α → n β}
    (hf : ∀ state item, R.rel (f state item) (g state item)) (items : List α) (start : β) :
    R.rel (items.foldlM f start) (items.foldlM g start) := by
  induction items generalizing start with
  | nil => exact R.ofPure start
  | cons item rest ih =>
      rw [List.foldlM_cons, List.foldlM_cons]
      exact R.ofBind (hf start item) ih

theorem orRaise {ε : Type} (raise : ε → Fault) (answer : Except ε α) :
    R.rel (Rewriter.orRaise raise answer) (Rewriter.orRaise raise answer) := by
  cases answer with
  | error fault => exact R.ofThrow (raise fault)
  | ok value => exact R.ofPure value

end Correspondence

/-- The step has the same guard as the other, and their rules correspond wherever the
guard lets them at anything. -/
structure Step.Corresponds (R : Correspondence m n) (step : Step m) (other : Step n) : Prop where
  guard_eq : step.guard = other.guard
  onTree : ∀ forest, other.admits forest .tree = true →
    R.rel (step.rule.onTree forest) (other.rule.onTree forest)
  onNode : ∀ forest entered current, other.admits forest (.node entered) = true →
    R.rel (step.rule.onNode forest current) (other.rule.onNode forest current)
  onMember : ∀ forest before node entered current,
    other.admits forest (.member before entered) = true →
    R.rel (step.rule.onMember forest node current) (other.rule.onMember forest node current)

omit [Monad m] [MonadExceptOf Fault m] [Monad n] [MonadExceptOf Fault n] in
/-- Steps with one guard apply to the same. -/
theorem Step.admits_eq_of_guard {step : Step m} {other : Step n} (hguard : step.guard = other.guard)
    (forest : Forest) (subject : Subject) :
    step.admits forest subject = other.admits forest subject := by
  rw [admits, admits, hguard]

variable {R : Correspondence m n}

namespace Rewriter

variable {steps : List (Step m)} {others : List (Step n)}

theorem foldTree_corresponds (hsteps : List.Forall₂ (Step.Corresponds R) steps others)
    (tally : Tally) (forest : Forest) :
    R.rel (foldTree tally forest steps) (foldTree tally forest others) := by
  induction hsteps generalizing tally forest with
  | nil => exact R.ofPure _
  | cons hstep _ ih =>
      rw [foldTree, foldTree, Step.admits_eq_of_guard hstep.guard_eq]
      split
      next hadmits => exact R.ofBind (hstep.onTree forest hadmits) fun next => ih _ next
      next => exact ih tally forest

theorem foldNode_corresponds (hsteps : List.Forall₂ (Step.Corresponds R) steps others)
    (forest : Forest) (entered current : Node) :
    R.rel (foldNode forest entered current steps) (foldNode forest entered current others) := by
  induction hsteps generalizing current with
  | nil => exact R.ofPure _
  | cons hstep _ ih =>
      rw [foldNode, foldNode, Step.admits_eq_of_guard hstep.guard_eq]
      split
      next hadmits =>
        refine R.ofBind (hstep.onNode forest entered current hadmits) fun left => ?_
        cases left with
        | none => exact R.ofPure none
        | some next => exact ih next
      next => exact ih current

theorem foldMember_corresponds (hsteps : List.Forall₂ (Step.Corresponds R) steps others)
    (forest : Forest) (before node : Node) (entered current : Member) :
    R.rel (foldMember forest before node entered current steps)
      (foldMember forest before node entered current others) := by
  induction hsteps generalizing current with
  | nil => exact R.ofPure _
  | cons hstep _ ih =>
      rw [foldMember, foldMember, Step.admits_eq_of_guard hstep.guard_eq]
      split
      next hadmits =>
        refine R.ofBind (hstep.onMember forest before node entered current hadmits) fun left => ?_
        cases left with
        | none => exact R.ofPure none
        | some next => exact ih next
      next => exact ih current

theorem foldMembers_corresponds (hsteps : List.Forall₂ (Step.Corresponds R) steps others)
    (forest : Forest) (before node : Node) (tally : Tally) (members : List Member) :
    R.rel (foldMembers steps forest before node tally members)
      (foldMembers others forest before node tally members) := by
  induction members generalizing tally with
  | nil => exact R.ofPure _
  | cons member rest ih =>
      rw [foldMembers, foldMembers]
      refine R.ofBind (foldMember_corresponds hsteps forest before node member member)
        fun left => ?_
      cases left with
      | none => exact ih _
      | some left => exact R.ofBind (ih _) fun _ => R.ofPure _

theorem visit_corresponds (hsteps : List.Forall₂ (Step.Corresponds R) steps others)
    (forest : Forest) (levels : Nat) (parent : Option Path) (progress : Progress) (node : Node) :
    R.rel (visit steps forest levels parent progress node)
      (visit others forest levels parent progress node) := by
  induction levels generalizing parent progress node with
  | zero => exact R.ofThrow _
  | succ levels ih =>
      rw [visit, visit]
      refine R.ofBind (foldNode_corresponds hsteps forest node node) fun left => ?_
      cases left with
      | none => exact R.ofPure _
      | some kept =>
          refine R.ofThrowIf _ _ fun _ => ?_
          refine R.ofBind (foldMembers_corresponds hsteps forest node kept _ _) fun folded => ?_
          refine R.ofBind (R.orRaise _ _) fun staging => ?_
          exact R.foldlM (fun before child => ih _ before child) _ _

/-- Rewrites by corresponding steps correspond. -/
theorem apply_corresponds (hsteps : List.Forall₂ (Step.Corresponds R) steps others)
    (rewriter : Rewriter) (forest : Forest) :
    R.rel (rewriter.apply steps forest) (rewriter.apply others forest) := by
  have hempty : steps.isEmpty = others.isEmpty := by
    cases hsteps <;> rfl
  rw [apply, apply, hempty]
  split
  next => exact R.ofPure _
  next =>
    refine R.ofBind (foldTree_corresponds hsteps .zero forest) fun settled => ?_
    refine R.ofBind (R.foldlM (fun before root => visit_corresponds hsteps _ _ none before root)
      _ _) fun progress => ?_
    exact R.ofBind (R.orRaise _ _) fun built => R.ofPure _

end Rewriter

end TreePass
