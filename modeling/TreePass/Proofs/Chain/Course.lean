import TreePass.Chain.Basic
import TreePass.Proofs.Answer

/-!
# The course of a chain

The course of a chain with plain rules is its left fold without a memo: the
outcome of every position is made of the forest before it, up to the first
fault. A position fails if its steps fail on the forest before it; at most one
position does, and its fault is the fault of everything that comes after it.
-/

namespace TreePass

namespace Chain

/-- The steps of the pass at a position; none where there is no pass. -/
def stepsAt {m : Type → Type} (chain : Chain m) (position : Nat) : List (Step m) :=
  (chain.passes[position]?).elim [] Pass.steps

/-- The outcome of every position, or the first fault up to it. -/
def course (chain : Chain (Except Fault)) : Nat → Except Fault Outcome
  | 0 => .ok .start
  | position + 1 => do
      let before ← chain.course position
      chain.rewriter.apply (chain.stepsAt (position + 1)) before.forest

/-- The steps of a position fail on the forest of the position before it. -/
def FailsAt (chain : Chain (Except Fault)) (fault : Fault) : Nat → Prop
  | 0 => False
  | position + 1 => ∃ before, chain.course position = .ok before ∧
      chain.rewriter.apply (chain.stepsAt (position + 1)) before.forest = .error fault

variable {chain : Chain (Except Fault)} {fault : Fault} {position : Nat}

/-! ## Up to the first fault -/

theorem course_succ_of_ok {before : Outcome} (hbefore : chain.course position = .ok before) :
    chain.course (position + 1) =
      chain.rewriter.apply (chain.stepsAt (position + 1)) before.forest := by
  rw [course, hbefore, ok_bind]

/-- After a fault the course goes nowhere. -/
theorem course_error_of_le {later : Nat} (herror : chain.course position = .error fault)
    (hle : position ≤ later) : chain.course later = .error fault := by
  induction hle with
  | refl => exact herror
  | step _ ih => rw [course, ih, error_bind]

theorem course_ok_of_le {earlier : Nat} {outcome : Outcome}
    (hok : chain.course position = .ok outcome) (hle : earlier ≤ position) :
    ∃ before, chain.course earlier = .ok before := by
  cases hearlier : chain.course earlier with
  | ok before => exact ⟨before, rfl⟩
  | error fault =>
      rw [course_error_of_le hearlier hle] at hok
      cases hok

theorem FailsAt.course_eq (hfails : chain.FailsAt fault position) :
    chain.course position = .error fault := by
  cases position with
  | zero => exact hfails.elim
  | succ position =>
      obtain ⟨before, hbefore, happly⟩ := hfails
      rw [course_succ_of_ok hbefore, happly]

theorem FailsAt.course_ok_of_lt (hfails : chain.FailsAt fault position) {earlier : Nat}
    (hlt : earlier < position) : ∃ before, chain.course earlier = .ok before := by
  cases position with
  | zero => exact hfails.elim
  | succ position =>
      obtain ⟨before, hbefore, _⟩ := hfails
      exact course_ok_of_le hbefore (Nat.le_of_lt_succ hlt)

/-- The fault of the course is that of the position that fails. -/
theorem course_eq_error_iff :
    chain.course position = .error fault ↔ ∃ failing ≤ position, chain.FailsAt fault failing := by
  constructor
  · intro herror
    induction position with
    | zero => cases herror
    | succ position ih =>
        cases hbefore : chain.course position with
        | error earlier =>
            -- The fault is that of an earlier position, passed on.
            have heq : earlier = fault := by
              rw [course_error_of_le hbefore position.le_succ] at herror
              exact Except.error.inj herror
            obtain ⟨failing, hle, hfails⟩ := ih (heq ▸ hbefore)
            exact ⟨failing, Nat.le_succ_of_le hle, hfails⟩
        | ok before =>
            rw [course_succ_of_ok hbefore] at herror
            exact ⟨position + 1, Nat.le_refl _, before, hbefore, herror⟩
  · rintro ⟨failing, hle, hfails⟩
    exact course_error_of_le hfails.course_eq hle

theorem course_ok_iff :
    (∃ outcome, chain.course position = .ok outcome) ↔
      ∀ failing fault, chain.FailsAt fault failing → position < failing := by
  constructor
  · rintro ⟨outcome, hok⟩ failing fault hfails
    refine Nat.lt_of_not_le fun hle => ?_
    rw [course_error_of_le hfails.course_eq hle] at hok
    cases hok
  · intro hbefore
    cases hcourse : chain.course position with
    | ok outcome => exact ⟨outcome, rfl⟩
    | error fault =>
        obtain ⟨failing, hle, hfails⟩ := course_eq_error_iff.mp hcourse
        exact absurd (hbefore failing fault hfails) (Nat.not_lt_of_le hle)

/-- At most one position fails. -/
theorem FailsAt.position_eq {other : Fault} {failing : Nat}
    (hfails : chain.FailsAt fault position) (hother : chain.FailsAt other failing) :
    position = failing := by
  rcases Nat.lt_trichotomy position failing with hlt | heq | hlt
  · obtain ⟨before, hbefore⟩ := hother.course_ok_of_lt hlt
    rw [hfails.course_eq] at hbefore
    cases hbefore
  · exact heq
  · obtain ⟨before, hbefore⟩ := hfails.course_ok_of_lt hlt
    rw [hother.course_eq] at hbefore
    cases hbefore

/-! ## A chain that fails -/

def breakOff : Operations (Except Fault) :=
  { Operations.keep with onTree := fun _ => .error (.custom "broken") }

/-- A chain whose second pass fails. -/
def brokenChain : Chain (Except Fault) where
  passes := [.sentinel "seed",
    { name := "seed", steps := [.ofRule (.addRoot (.named "a"))] },
    { name := "break", steps := [.ofRule (.custom "break off" breakOff)] },
    { name := "keep" }]

end Chain

end TreePass
