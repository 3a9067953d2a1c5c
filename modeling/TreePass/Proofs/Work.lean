import TreePass.Chain.Basic

/-!
# Work with effects

Rules need not be plain functions: they may keep a state of any kind between
their calls, and they may fail. What holds of every value that such work can
answer is established from part to part, whatever the states in between are.
-/

namespace TreePass

/-- Work that may read and change a state, and may fail. -/
abbrev Work (σ : Type) := ExceptT Fault (StateM σ)

variable {σ α β : Type}

theorem Work.observe_run (work : Work σ α) (before : σ) :
    (Chain.observe work).run.run before = match work.run.run before with
      | (.ok value, after) => (.ok (.ok value), after)
      | (.error fault, after) => (.ok (.error fault), after) := by
  unfold Chain.observe
  rw [ExceptT.run_tryCatch, ExceptT.run_map, StateT.run_bind, StateT.run_map]
  cases hstart : work.run.run before with
  | mk outcome after => cases outcome <;> rfl

/-- A sequence answers if its first part answers and the rest does from there. -/
theorem Work.run_bind_eq_ok {work : Work σ α} {next : α → Work σ β} {before after : σ}
    {answer : β} :
    (work >>= next).run.run before = (.ok answer, after) ↔ ∃ value middle,
      work.run.run before = (.ok value, middle) ∧
        (next value).run.run middle = (.ok answer, after) := by
  rw [ExceptT.run_bind, StateT.run_bind]
  cases hwork : work.run.run before with
  | mk outcome middle =>
      constructor
      · intro hrun
        cases outcome with
        | error fault => cases hrun
        | ok value => exact ⟨value, middle, rfl, hrun⟩
      · rintro ⟨value, state, hvalue, hrun⟩
        cases hvalue
        exact hrun

/-- What stands in place of a fault is answered as it is. -/
theorem Work.run_orRaise_eq_ok {ε : Type} {raise : ε → Fault} {answer : Except ε α}
    {before after : σ} {value : α} :
    (Rewriter.orRaise raise answer : Work σ α).run.run before = (.ok value, after) ↔
      answer = .ok value ∧ before = after := by
  cases answer with
  | error fault => exact ⟨fun hrun => (nomatch hrun), fun hvalue => (nomatch hvalue.1)⟩
  | ok found =>
      constructor
      · rintro ⟨⟩
        exact ⟨rfl, rfl⟩
      · rintro ⟨⟨⟩, rfl⟩
        rfl

/-- What shows of an answer shows of a value that the work answers. -/
theorem Work.exists_value {work : Work σ α} {start : σ} {f : α → β} {shown : β}
    (hshown : (work.run.run start).1.toOption.map f = some shown) :
    ∃ value, work.run.run start = (.ok value, (work.run.run start).2) ∧ f value = shown := by
  cases hrun : work.run.run start with
  | mk answer after =>
      rw [hrun] at hshown
      cases answer with
      | error fault => cases hshown
      | ok value => exact ⟨value, rfl, Option.some.inj hshown⟩

/-- Loops whose turns agree on the items of a list come to the same on the list. -/
theorem foldlM_congr {m : Type → Type} [Monad m] {f g : β → α → m β} {items : List α}
    (hitems : ∀ item ∈ items, ∀ state, f state item = g state item) (start : β) :
    items.foldlM f start = items.foldlM g start := by
  induction items generalizing start with
  | nil => rfl
  | cons item rest ih =>
      obtain ⟨hitem, hrest⟩ := List.forall_mem_cons.mp hitems
      rw [List.foldlM_cons, List.foldlM_cons, hitem start]
      exact congrArg _ (funext fun next => ih hrest next)

/-- Whatever the state that the work starts from, every value that it answers has
a property. -/
def Ensures (work : Work σ α) (holds : α → Prop) : Prop :=
  ∀ before value after, work.run.run before = (.ok value, after) → holds value

namespace Ensures

variable {holds : α → Prop}

theorem pure {value : α} (hvalue : holds value) : Ensures (pure value : Work σ α) holds := by
  intro before answer after hrun
  cases hrun
  exact hvalue

theorem throw (fault : Fault) : Ensures (throw fault : Work σ α) holds := by
  intro before answer after hrun
  cases hrun

theorem trivial (work : Work σ α) : Ensures work fun _ => True :=
  fun _ _ _ _ => True.intro

theorem mono {work : Work σ α} {result : α → Prop} (hwork : Ensures work holds)
    (hresult : ∀ value, holds value → result value) : Ensures work result :=
  fun before value after hrun => hresult value (hwork before value after hrun)

theorem and {work : Work σ α} {result : α → Prop} (hwork : Ensures work holds)
    (hresult : Ensures work result) : Ensures work fun value => holds value ∧ result value :=
  fun before value after hrun => ⟨hwork before value after hrun, hresult before value after hrun⟩

/-- What the first part ensures the second part may count on. -/
theorem bind {work : Work σ α} {next : α → Work σ β} {result : β → Prop}
    (hwork : Ensures work holds) (hnext : ∀ value, holds value → Ensures (next value) result) :
    Ensures (work >>= next) result := by
  intro before answer after hrun
  obtain ⟨value, middle, hvalue, hanswer⟩ := Work.run_bind_eq_ok.mp hrun
  exact hnext value (hwork before value middle hvalue) middle answer after hanswer

/-- Second parts that agree on what the first part ensures come to the same. -/
theorem bind_congr {work : Work σ α} {next further : α → Work σ β} (hwork : Ensures work holds)
    (hnext : ∀ value, holds value → next value = further value) :
    work >>= next = work >>= further := by
  refine ExceptT.ext (StateT.ext fun before => ?_)
  rw [ExceptT.run_bind, ExceptT.run_bind, StateT.run_bind, StateT.run_bind]
  cases hmiddle : work.run.run before with
  | mk middle state =>
      cases middle with
      | error fault => rfl
      | ok value =>
          have hrest := hnext value (hwork before value state hmiddle)
          exact congrArg (fun rest : Work σ β => rest.run.run state) hrest

/-- A property that each turn of a loop keeps is there in the end. -/
theorem foldlM {f : β → α → Work σ β} {invariant : β → Prop}
    (hf : ∀ state item, invariant state → Ensures (f state item) invariant)
    (items : List α) {start : β} (hstart : invariant start) :
    Ensures (items.foldlM f start) invariant := by
  induction items generalizing start with
  | nil => exact pure hstart
  | cons item rest ih =>
      rw [List.foldlM_cons]
      exact (hf start item hstart).bind fun state hstate => ih hstate

theorem orRaise {ε : Type} {raise : ε → Fault} {answer : Except ε α}
    (hanswer : ∀ value, answer = .ok value → holds value) :
    Ensures (Rewriter.orRaise raise answer : Work σ α) holds := by
  cases answer with
  | error fault => exact throw _
  | ok value => exact pure (hanswer value rfl)

end Ensures

/-- From every state the work answers a value, which has a property. -/
def Answers (work : Work σ α) (holds : α → Prop) : Prop :=
  ∀ before, ∃ value after, work.run.run before = (.ok value, after) ∧ holds value

namespace Answers

variable {holds : α → Prop}

theorem pure {value : α} (hvalue : holds value) : Answers (pure value : Work σ α) holds :=
  fun before => ⟨value, before, rfl, hvalue⟩

/-- What the first part answers the second part goes on from. -/
theorem bind {work : Work σ α} {next : α → Work σ β} {result : β → Prop}
    (hwork : Answers work holds) (hnext : ∀ value, holds value → Answers (next value) result) :
    Answers (work >>= next) result := by
  intro before
  obtain ⟨value, middle, hrun, hvalue⟩ := hwork before
  obtain ⟨answer, after, hrest, hanswer⟩ := hnext value hvalue middle
  exact ⟨answer, after, Work.run_bind_eq_ok.mpr ⟨value, middle, hrun, hrest⟩, hanswer⟩

/-- Work always answers when it answers its fault as well; what it ensures it
ensures of the values. -/
theorem observe {work : Work σ α} (hwork : Ensures work holds) :
    Answers (Chain.observe work) fun answer => ∀ value, answer = .ok value → holds value := by
  intro before
  rw [Work.observe_run]
  cases hstart : work.run.run before with
  | mk outcome after =>
      cases outcome with
      | error fault => exact ⟨.error fault, after, rfl, fun _ hvalue => nomatch hvalue⟩
      | ok found =>
          refine ⟨.ok found, after, rfl, fun value hvalue => ?_⟩
          cases hvalue
          exact hwork before found after hstart

end Answers

/-- From every state the work comes to the given answer, be it a value or a fault. -/
def Shows (work : Work σ α) (answer : Except Fault α) : Prop :=
  ∀ before, ∃ after, work.run.run before = (answer, after)

namespace Shows

theorem pure (value : α) : Shows (pure value : Work σ α) (.ok value) :=
  fun before => ⟨before, rfl⟩

theorem throw (fault : Fault) : Shows (throw fault : Work σ α) (.error fault) :=
  fun before => ⟨before, rfl⟩

theorem bind {work : Work σ α} {answer : Except Fault α} {next : α → Work σ β}
    {further : α → Except Fault β} (hwork : Shows work answer)
    (hnext : ∀ value, Shows (next value) (further value)) :
    Shows (work >>= next) (answer >>= further) := by
  intro before
  obtain ⟨middle, hrun⟩ := hwork before
  rw [ExceptT.run_bind, StateT.run_bind, hrun]
  cases answer with
  | error fault => exact ⟨middle, rfl⟩
  | ok value => exact hnext value middle

end Shows

end TreePass
