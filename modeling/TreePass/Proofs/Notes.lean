import TreePass.Proofs.Work

/-!
# Taking notes

What rules do in a rewrite can be noted by rules. Steps are done in a state that has
notes besides, where a step may note what its rule is called on and what it removes, and
further steps that change nothing note what comes to them. Every run of the steps that
answers is one of the steps that take notes too.
-/

namespace TreePass

variable {σ ν α β : Type}

namespace Work

/-- The work in a state that has notes besides, which it leaves as they are. -/
def beside (work : Work σ α) : Work (σ × List ν) α :=
  ExceptT.mk fun before : σ × List ν =>
    let (outcome, after) := work.run.run before.1
    pure (outcome, (after, before.2))

/-- Adds to the notes. -/
def take (notes : List ν) : Work (σ × List ν) Unit :=
  modify fun before => (before.1, before.2 ++ notes)

end Work

/-- Where the work answers, so does the work that takes notes, in the same state; what it
adds to the notes goes with the answer. -/
def Noted (work : Work σ α) (noting : Work (σ × List ν) α) (holds : α → List ν → Prop) : Prop :=
  ∀ before answer after, work.run.run before = (.ok answer, after) →
    ∃ notes, holds answer notes ∧
      ∀ earlier, noting.run.run (before, earlier) = (.ok answer, (after, earlier ++ notes))

namespace Noted

variable {work : Work σ α} {noting : Work (σ × List ν) α} {holds : α → List ν → Prop}

theorem pure {value : α} (hvalue : holds value []) :
    Noted (pure value : Work σ α) (pure value) holds := by
  intro before answer after hrun
  cases hrun
  exact ⟨[], hvalue, fun earlier => by rw [List.append_nil]; rfl⟩

theorem throw (fault : Fault) (noting : Work (σ × List ν) α) :
    Noted (throw fault : Work σ α) noting holds := by
  intro before answer after hrun
  cases hrun

theorem mono {result : α → List ν → Prop} (hwork : Noted work noting holds)
    (hresult : ∀ answer notes, holds answer notes → result answer notes) :
    Noted work noting result := by
  intro before answer after hrun
  obtain ⟨notes, hholds, hnoting⟩ := hwork before answer after hrun
  exact ⟨notes, hresult answer notes hholds, hnoting⟩

theorem ensuring {result : α → Prop} (hwork : Noted work noting holds)
    (hensures : Ensures work result) :
    Noted work noting fun answer notes => result answer ∧ holds answer notes := by
  intro before answer after hrun
  obtain ⟨notes, hholds, hnoting⟩ := hwork before answer after hrun
  exact ⟨notes, ⟨hensures before answer after hrun, hholds⟩, hnoting⟩

/-- The notes of a sequence are those of its parts, one after the other. -/
theorem bind {next : α → Work σ β} {further : α → Work (σ × List ν) β}
    {result : β → List ν → Prop} (hwork : Noted work noting holds)
    (hnext : ∀ value notes, holds value notes →
      Noted (next value) (further value) fun answer more => result answer (notes ++ more)) :
    Noted (work >>= next) (noting >>= further) result := by
  intro before answer after hrun
  obtain ⟨value, middle, hvalue, hanswer⟩ := Work.run_bind_eq_ok.mp hrun
  obtain ⟨notes, hholds, hnoting⟩ := hwork before value middle hvalue
  obtain ⟨more, hresult, hfurther⟩ := hnext value notes hholds middle answer after hanswer
  refine ⟨notes ++ more, hresult, fun earlier => ?_⟩
  rw [← List.append_assoc]
  exact Work.run_bind_eq_ok.mpr ⟨value, (middle, earlier ++ notes), hnoting earlier, hfurther _⟩

theorem beside (work : Work σ α) (hnil : ∀ answer, holds answer []) :
    Noted work work.beside holds := by
  intro before answer after hrun
  refine ⟨[], hnil answer, fun earlier => ?_⟩
  rw [List.append_nil]
  show (let (outcome, after) := work.run.run before; (outcome, (after, earlier))) = _
  rw [hrun]

/-- What is noted first comes before all other notes. -/
theorem take {notes : List ν}
    (hnoting : Noted work noting fun answer more => holds answer (notes ++ more)) :
    Noted work (Work.take notes >>= fun _ => noting) holds := by
  intro before answer after hrun
  obtain ⟨more, hholds, hmore⟩ := hnoting before answer after hrun
  refine ⟨notes ++ more, hholds, fun earlier => ?_⟩
  rw [← List.append_assoc]
  exact Work.run_bind_eq_ok.mpr ⟨(), (before, earlier ++ notes), rfl, hmore _⟩

/-- What is noted of an answer comes after all other notes. -/
theorem takeOf {notes : α → List ν}
    (hnoting : Noted work noting fun answer earlier => holds answer (earlier ++ notes answer)) :
    Noted work (noting >>= fun answer => Work.take (notes answer) >>= fun _ => Pure.pure answer)
      holds := by
  rw [← bind_pure work]
  refine hnoting.bind fun answer earlier hholds => take (pure ?_)
  rwa [List.append_nil]

/-- If the work goes on after a test, so does the work that takes notes. -/
theorem throwIf {condition : Prop} [Decidable condition] (fault : Fault) {rest : PUnit → Work σ α}
    {others : PUnit → Work (σ × List ν) α}
    (hrest : ¬ condition → Noted (rest ⟨⟩) (others ⟨⟩) holds) :
    Noted (if condition then MonadExcept.throw fault >>= rest else rest ⟨⟩)
      (if condition then MonadExcept.throw fault >>= others else others ⟨⟩) holds := by
  split
  next => exact fun before answer after hrun => nomatch hrun
  next hnot => exact hrest hnot

theorem orRaise {ε : Type} {raise : ε → Fault} {answer : Except ε α}
    (hnil : ∀ value, answer = .ok value → holds value []) :
    Noted (Rewriter.orRaise raise answer : Work σ α) (Rewriter.orRaise raise answer) holds := by
  cases answer with
  | error fault => exact throw _ _
  | ok value => exact pure (hnil value rfl)

end Noted

/-! ## Steps -/

/-- The rule as one that takes notes of the members that it is called on, and further notes
of those that it then removes. -/
def Rule.noting (called removed : Member → List ν) (rule : Rule (Work σ)) :
    Rule (Work (σ × List ν)) :=
  .custom rule.name
    { onTree := fun forest => (rule.onTree forest).beside
      onNode := fun forest node => (rule.onNode forest node).beside
      onMember := fun forest node member => do
        Work.take (called member)
        let left ← (rule.onMember forest node member).beside
        Work.take (if left.isNone then removed member else [])
        pure left }

namespace Step

/-- The step with the rule that takes notes. -/
def noting (called removed : Member → List ν) (step : Step (Work σ)) :
    Step (Work (σ × List ν)) where
  name := step.name
  documentation := step.documentation
  guard := step.guard
  rule := step.rule.noting called removed

variable (called removed : Member → List ν) (step : Step (Work σ))

theorem admits_noting (forest : Forest) (subject : Subject) :
    (step.noting called removed).admits forest subject = step.admits forest subject :=
  rfl

/-- A call of the rule is noted, and so is that it removes the member. -/
theorem onMember_noting (forest : Forest) (node : Node) (member : Member) :
    Noted (step.rule.onMember forest node member)
      ((step.noting called removed).rule.onMember forest node member) fun left notes =>
        notes = called member ++ if left.isNone then removed member else [] :=
  .take (.takeOf (.beside _ fun _ => rfl))

/-- A step on all nodes and members. It changes none and takes notes of each. -/
def spy (ofNode : Forest → Node → List ν) (ofMember : Member → List ν) :
    Step (Work (σ × List ν)) where
  name := "spy"
  guard := some (.nodeTest fun _ _ => true)
  rule := .custom "spy"
    { onTree := pure
      onNode := fun forest node => do
        Work.take (ofNode forest node)
        pure (some node)
      onMember := fun _ _ member => do
        Work.take (ofMember member)
        pure (some member) }

end Step

namespace Rewriter

variable {tree : Forest} (steps rest : List (Step (Work σ)))
  {others : List (Step (Work (σ × List ν)))} {ofNode : Forest → Node → List ν}
  {ofMember : Member → List ν}

/-! ## Spies in front of other steps -/

theorem foldNode_spy {steps : List (Step (Work σ))} {holds : Option Node → List ν → Prop}
    {entered current : Node}
    (hothers : Noted (foldNode tree entered current steps) (foldNode tree entered current others)
      fun left notes => holds left (ofNode tree current ++ notes)) :
    Noted (foldNode tree entered current steps)
      (foldNode tree entered current (Step.spy ofNode ofMember :: others)) holds :=
  hothers.take

theorem foldMember_spy {steps : List (Step (Work σ))} {holds : Option Member → List ν → Prop}
    {before node : Node} {entered current : Member}
    (hothers : Noted (foldMember tree before node entered current steps)
      (foldMember tree before node entered current others)
      fun left notes => holds left (ofMember current ++ notes)) :
    Noted (foldMember tree before node entered current steps)
      (foldMember tree before node entered current (Step.spy ofNode ofMember :: others)) holds :=
  hothers.take

/-! ## Steps that are done as before -/

theorem foldTree_noting {holds : Forest × Tally → List ν → Prop}
    (called removed : Member → List ν)
    (hrest : ∀ tally forest,
      Noted (foldTree tally forest rest) (foldTree tally forest others) holds)
    (tally : Tally) (forest : Forest) :
    Noted (foldTree tally forest (steps ++ rest))
      (foldTree tally forest (steps.map (Step.noting called removed) ++ others)) holds := by
  induction steps generalizing tally forest with
  | nil => exact hrest tally forest
  | cons step steps ih =>
      rw [List.cons_append, List.map_cons, List.cons_append, foldTree, foldTree,
        Step.admits_noting]
      split
      next =>
        have hstep : Noted (step.rule.onTree forest)
            ((step.noting called removed).rule.onTree forest) fun _ taken => taken = [] :=
          .beside _ fun _ => rfl
        refine hstep.bind ?_
        rintro next _ rfl
        exact ih _ next
      next => exact ih tally forest

theorem foldNode_noting {holds : Option Node → List ν → Prop} {entered : Node}
    (called removed : Member → List ν) (hremoved : holds none [])
    (hrest : ∀ current, Noted (foldNode tree entered current rest)
      (foldNode tree entered current others) holds)
    (current : Node) :
    Noted (foldNode tree entered current (steps ++ rest))
      (foldNode tree entered current (steps.map (Step.noting called removed) ++ others)) holds := by
  induction steps generalizing current with
  | nil => exact hrest current
  | cons step steps ih =>
      rw [List.cons_append, List.map_cons, List.cons_append, foldNode, foldNode,
        Step.admits_noting]
      split
      next =>
        have hstep : Noted (step.rule.onNode tree current)
            ((step.noting called removed).rule.onNode tree current) fun _ taken => taken = [] :=
          .beside _ fun _ => rfl
        refine hstep.bind ?_
        rintro left _ rfl
        cases left with
        | none => exact .pure hremoved
        | some next => exact ih next
      next => exact ih current

theorem foldMember_noting {holds : Option Member → List ν → Prop} {before node : Node}
    {entered : Member} (removed : Member → List ν)
    (hremoved : ∀ current, holds none (removed current))
    (hrest : ∀ current, Noted (foldMember tree before node entered current rest)
      (foldMember tree before node entered current others) holds)
    (current : Member) :
    Noted (foldMember tree before node entered current (steps ++ rest))
      (foldMember tree before node entered current
        (steps.map (Step.noting (fun _ => []) removed) ++ others)) holds := by
  induction steps generalizing current with
  | nil => exact hrest current
  | cons step steps ih =>
      rw [List.cons_append, List.map_cons, List.cons_append, foldMember, foldMember,
        Step.admits_noting]
      split
      next =>
        refine (step.onMember_noting _ removed tree node current).bind ?_
        rintro left _ rfl
        cases left with
        | none => exact .pure (by simpa using hremoved current)
        | some next => exact ih next
      next => exact ih current

end Rewriter

end TreePass
