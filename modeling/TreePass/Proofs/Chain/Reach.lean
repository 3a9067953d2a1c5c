import TreePass.Proofs.Chain.Truth
import TreePass.Proofs.Keyed

/-!
# Reaching along the course

A memo follows the course up to a position when it knows exactly the outcomes
that there are up to this position. Reaching for a position keeps a memo on the
course. On the way it tries, in order, every position that is not known and,
if that is not after the one that was asked for, the position that fails: this
one is tried again each time.
-/

namespace TreePass

namespace Chain

variable {chain : Chain (Except Fault)}

/-- The positions that are tried after `position`, where `count` is the number of
positions still to go. -/
def attempts (chain : Chain (Except Fault)) (position : Nat) : Nat → List Nat
  | 0 => []
  | count + 1 => (position + 1) ::
      match chain.course (position + 1) with
      | .error _ => []
      | .ok _ => attempts chain (position + 1) count

/-- What is tried is what comes next to an outcome, as far as it was asked for. -/
theorem mem_attempts {position count tried : Nat} {outcome : Outcome}
    (hok : chain.course position = .ok outcome) :
    tried ∈ chain.attempts position count ↔ position < tried ∧ tried ≤ position + count ∧
      ∃ before, chain.course (tried - 1) = .ok before := by
  induction count generalizing position outcome with
  | zero =>
      simp only [attempts, List.not_mem_nil, false_iff]
      omega
  | succ count ih =>
      rw [attempts, List.mem_cons]
      cases hnext : chain.course (position + 1) with
      | ok next =>
          dsimp only
          rw [ih hnext]
          constructor
          · rintro (rfl | ⟨hlt, hle, hbefore⟩)
            · exact ⟨by omega, by omega, outcome, hok⟩
            · exact ⟨by omega, by omega, hbefore⟩
          · rintro ⟨hlt, hle, hbefore⟩
            rcases Nat.lt_or_eq_of_le hlt with hlater | heq
            · exact .inr ⟨hlater, by omega, hbefore⟩
            · exact .inl heq.symm
      | error fault =>
          -- The attempts end here, and nothing after this position follows an outcome.
          simp only [List.not_mem_nil, or_false]
          constructor
          · rintro rfl
            exact ⟨by omega, by omega, outcome, hok⟩
          · rintro ⟨hlt, hle, before, hbefore⟩
            rcases Nat.lt_or_eq_of_le hlt with hlater | heq
            · rw [course_error_of_le hnext (Nat.le_sub_one_of_lt hlater)] at hbefore
              cases hbefore
            · exact heq.symm

theorem nodup_attempts (position count : Nat) {outcome : Outcome}
    (hok : chain.course position = .ok outcome) : (chain.attempts position count).Nodup := by
  induction count generalizing position outcome with
  | zero => exact List.nodup_nil
  | succ count ih =>
      rw [attempts, List.nodup_cons]
      cases hnext : chain.course (position + 1) with
      | error fault => exact ⟨List.not_mem_nil, List.nodup_nil⟩
      | ok next =>
          refine ⟨fun hmem => ?_, ih (position + 1) hnext⟩
          exact Nat.lt_irrefl _ ((mem_attempts hnext).mp hmem).1

end Chain

/-! ## Memos on the course -/

/-- A memo knows exactly the outcomes that there are up to a position. -/
def Memo.Follows (memo : Memo) (chain : Chain (Except Fault)) (last : Nat) : Prop :=
  ∀ position, memo.get? position =
    if position ≤ last then (chain.course position).toOption else none

namespace Memo

variable {chain : Chain (Except Fault)} {memo : Memo} {last position : Nat}

theorem get?_store (memo : Memo) (position other : Nat) (outcome : Outcome) :
    (memo.store position outcome).get? other =
      if position = other then some outcome else memo.get? other :=
  Keyed.get?_put position other outcome memo.outcomes

theorem follows_fresh (chain : Chain (Except Fault)) : fresh.Follows chain 0 := by
  intro position
  by_cases hzero : position = 0
  · subst hzero
    rfl
  · rw [if_neg (by omega), fresh, get?, Keyed.get?_cons, if_neg (Ne.symm hzero), Keyed.get?_nil]

theorem Follows.get?_eq_some_iff (hmemo : memo.Follows chain last) {outcome : Outcome} :
    memo.get? position = some outcome ↔ position ≤ last ∧ chain.course position = .ok outcome := by
  rw [hmemo position]
  split
  next hle => cases chain.course position <;> simp [Except.toOption, hle]
  next hlt => simp [hlt]

theorem Follows.knows_iff (hmemo : memo.Follows chain last) :
    memo.knows position = true ↔ position ≤ last ∧ ∃ outcome, chain.course position = .ok outcome := by
  simp only [knows, Option.isSome_iff_exists, hmemo.get?_eq_some_iff, exists_and_left]

/-- Where the course ends, nothing changes if the memo follows it further. -/
theorem Follows.of_error (hmemo : memo.Follows chain last) {fault : Fault}
    (herror : chain.course position = .error fault) (hle : position ≤ last + 1) (later : Nat) :
    memo.Follows chain (max last later) := by
  intro other
  rw [hmemo other]
  by_cases hknown : other ≤ last
  · rw [if_pos hknown, if_pos (by omega)]
  · rw [if_neg hknown, Chain.course_error_of_le herror (by omega)]
    simp [Except.toOption]

theorem Follows.store (hmemo : memo.Follows chain last) {outcome : Outcome}
    (hok : chain.course position = .ok outcome) (hle : position ≤ last + 1) :
    (memo.store position outcome).Follows chain (max last position) := by
  intro other
  rw [get?_store]
  by_cases heq : position = other
  · rw [if_pos heq, if_pos (by omega), ← heq, hok]
    rfl
  · rw [if_neg heq, hmemo other]
    by_cases hknown : other ≤ last
    · rw [if_pos hknown, if_pos (by omega)]
    · rw [if_neg hknown, if_neg (by omega)]

theorem nearest_of_get? {outcome : Outcome} (hget : memo.get? position = some outcome) :
    memo.nearest position = (position, outcome) := by
  cases position with
  | zero => rw [Memo.nearest, hget, Option.getD_some]
  | succ position => rw [Memo.nearest, hget]

/-- The nearest known position has an outcome on the course, and after it nothing
is known. -/
theorem Follows.nearest (hmemo : memo.Follows chain last) (position : Nat) :
    (memo.nearest position).1 ≤ position ∧
      memo.get? (memo.nearest position).1 = some (memo.nearest position).2 ∧
      ∀ other, (memo.nearest position).1 < other → other ≤ position → memo.get? other = none := by
  induction position with
  | zero =>
      have hstart : memo.get? 0 = some .start := hmemo 0
      rw [nearest_of_get? hstart]
      exact ⟨Nat.le_refl _, hstart, fun other hlt hle => absurd hle (Nat.not_le_of_lt hlt)⟩
  | succ position ih =>
      cases hget : memo.get? (position + 1) with
      | some outcome =>
          rw [nearest_of_get? hget]
          exact ⟨Nat.le_refl _, hget, fun other hlt hle => absurd hle (Nat.not_le_of_lt hlt)⟩
      | none =>
          rw [Memo.nearest, hget]
          obtain ⟨hle, hknown, hafter⟩ := ih
          refine ⟨Nat.le_succ_of_le hle, hknown, fun other hlt hother => ?_⟩
          rcases Nat.le_succ_iff.mp hother with hbefore | rfl
          · exact hafter other hlt hbefore
          · exact hget

/-- To reach for a position is to go on from the nearest known one, also where that
is the position itself. -/
theorem reach_eq_advance {n : Type → Type} [Monad n]
    (step : Nat → Forest → n (Except Fault Outcome)) (memo : Memo) (position : Nat) :
    memo.reach step position = advance step (position - (memo.nearest position).1)
      (memo.nearest position).1 (memo.nearest position).2 memo := by
  rw [reach]
  cases hget : memo.get? position with
  | none => rfl
  | some outcome => rw [nearest_of_get? hget, Nat.sub_self, advance]

end Memo

/-! ## Runs that are noted -/

namespace Chain

section Noted

variable {n : Type → Type} [Monad n]

/-- Applies the steps of a position, and takes a note of what they came to. -/
def noted (chain : Chain (Except Fault)) (note : Nat → Except Fault Outcome → n PUnit)
    (position : Nat) (forest : Forest) : n (Except Fault Outcome) := do
  let answer := chain.rewriter.apply (chain.stepsAt position) forest
  note position answer
  pure answer

/-- Takes a note of what some positions come to on the course, in order. -/
def noteAll (chain : Chain (Except Fault)) (note : Nat → Except Fault Outcome → n PUnit)
    (positions : List Nat) : n PUnit :=
  positions.forM fun position => note position (chain.course position)

end Noted

theorem observe_eq {α : Type} (computation : Except Fault α) :
    observe computation = .ok computation := by
  cases computation <;> rfl

/-- The steps of a chain run as they do where nothing is noted of them. -/
theorem run_eq_noted (chain : Chain (Except Fault)) :
    chain.run = chain.noted fun _ _ => (pure ⟨⟩ : Except Fault PUnit) := by
  funext position forest
  rw [run, noted, stepsAt]
  cases chain.passes[position]? with
  | none => rfl
  | some pass => exact observe_eq _

theorem noteAll_nothing (chain : Chain (Except Fault)) (positions : List Nat) :
    chain.noteAll (fun _ _ => (pure ⟨⟩ : Except Fault PUnit)) positions = .ok ⟨⟩ := by
  induction positions with
  | nil => rfl
  | cons position rest ih => exact ih

variable {chain : Chain (Except Fault)} {memo : Memo} {last : Nat}

/-- Going on from a known position notes the attempts, answers as the course does
and keeps the memo on the course. -/
theorem advance_noted (count : Nat) {position : Nat} {outcome : Outcome}
    (hmemo : memo.Follows chain last) (hle : position ≤ last)
    (hok : chain.course position = .ok outcome) :
    ∃ after : Memo, after.Follows chain (max last (position + count)) ∧
      ∀ {n : Type → Type} [Monad n] [LawfulMonad n]
        (note : Nat → Except Fault Outcome → n PUnit),
        Memo.advance (chain.noted note) count position outcome memo =
          chain.noteAll note (chain.attempts position count) >>= fun _ =>
            pure (chain.course (position + count), after) := by
  induction count generalizing position outcome memo last with
  | zero =>
      refine ⟨memo, ?_, fun note => ?_⟩
      · rw [Nat.add_zero, Nat.max_eq_left hle]
        exact hmemo
      · simp [Memo.advance, noteAll, attempts, hok]
  | succ count ih =>
      have happly := course_succ_of_ok hok
      cases hnext : chain.course (position + 1) with
      | error fault =>
          -- Nothing is stored, and nothing more is there to be known.
          refine ⟨memo, hmemo.of_error hnext (by omega) _, fun note => ?_⟩
          rw [course_error_of_le hnext (by omega)]
          simp [Memo.advance, noted, noteAll, attempts, ← happly, hnext]
      | ok next =>
          obtain ⟨after, hafter, hrest⟩ :=
            ih (hmemo.store hnext (by omega)) (Nat.le_max_right _ _) hnext
          refine ⟨after, ?_, fun note => ?_⟩
          · rw [show max last (position + (count + 1)) =
              max (max last (position + 1)) (position + 1 + count) by omega]
            exact hafter
          · rw [show position + (count + 1) = position + 1 + count by omega]
            simp only [Memo.advance, noted, ← happly, hnext, bind_assoc, pure_bind, hrest note]
            simp [noteAll, attempts, hnext]

/-- What is tried when a memo that follows the course up to `last` reaches for a
position: all that is not known, and what fails, as far as the position. -/
def Due (chain : Chain (Except Fault)) (last position tried : Nat) : Prop :=
  tried ≤ position ∧
    (last < tried ∧ (∃ outcome, chain.course tried = .ok outcome) ∨
      ∃ fault, chain.FailsAt fault tried)

theorem mem_attempts_iff_due (hmemo : memo.Follows chain last) (position tried : Nat) :
    tried ∈ chain.attempts (memo.nearest position).1
      (position - (memo.nearest position).1) ↔ chain.Due last position tried := by
  obtain ⟨hle, hknown, hafter⟩ := hmemo.nearest position
  obtain ⟨hlast, hok⟩ := hmemo.get?_eq_some_iff.mp hknown
  rw [mem_attempts hok, Nat.add_sub_cancel' hle]
  constructor
  · rintro ⟨hlt, htried, before, hbefore⟩
    refine ⟨htried, ?_⟩
    obtain ⟨tried, rfl⟩ := Nat.exists_eq_add_one_of_ne_zero (Nat.ne_zero_of_lt hlt)
    rw [Nat.add_sub_cancel] at hbefore
    cases hcourse : chain.course (tried + 1) with
    | error fault =>
        rw [course_succ_of_ok hbefore] at hcourse
        exact .inr ⟨fault, before, hbefore, hcourse⟩
    | ok outcome =>
        -- If it were known, it would be the nearest known position or before it.
        refine .inl ⟨Nat.lt_of_not_le fun hle => ?_, outcome, rfl⟩
        have hget := hmemo.get?_eq_some_iff.mpr ⟨hle, hcourse⟩
        rw [hafter _ hlt htried] at hget
        cases hget
  · rintro ⟨htried, ⟨hlt, outcome, hcourse⟩ | ⟨fault, hfails⟩⟩
    · exact ⟨Nat.lt_of_le_of_lt hlast hlt, htried,
        course_ok_of_le hcourse (Nat.sub_le _ _)⟩
    · have hlt : (memo.nearest position).1 < tried := by
        refine Nat.lt_of_not_le fun hle => ?_
        rw [course_error_of_le hfails.course_eq hle] at hok
        cases hok
      exact ⟨hlt, htried, hfails.course_ok_of_lt (Nat.sub_one_lt (Nat.ne_zero_of_lt hlt))⟩

/-- Reaching for a position answers as the course does, keeps the memo on the course,
and tries what is due, each position once. -/
theorem reach_noted (hmemo : memo.Follows chain last) (position : Nat) :
    ∃ (after : Memo) (tries : List Nat), after.Follows chain (max last position) ∧
      tries.Nodup ∧ (∀ tried, tried ∈ tries ↔ chain.Due last position tried) ∧
      ∀ {n : Type → Type} [Monad n] [LawfulMonad n]
        (note : Nat → Except Fault Outcome → n PUnit),
        memo.reach (chain.noted note) position =
          chain.noteAll note tries >>= fun _ => pure (chain.course position, after) := by
  obtain ⟨hle, hknown, -⟩ := hmemo.nearest position
  obtain ⟨hlast, hok⟩ := hmemo.get?_eq_some_iff.mp hknown
  obtain ⟨after, hafter, hrun⟩ :=
    advance_noted (position - (memo.nearest position).1) hmemo hlast hok
  rw [Nat.add_sub_cancel' hle] at hafter hrun
  refine ⟨after, _, hafter, nodup_attempts _ _ hok, mem_attempts_iff_due hmemo position, ?_⟩
  intro n _ _ note
  rw [Memo.reach_eq_advance, hrun note]

/-! ## Questions -/

/-- A question is answered as the course says, keeps the memo on the course, and
tries what is due for the position that it asks for, each position once. -/
theorem ask_noted (hmemo : memo.Follows chain last) (question : Question (Except Fault)) :
    ∃ (reply : Reply) (after : Memo) (tries : List Nat), chain.Truthful question reply ∧
      after.Follows chain (max last ((chain.asked question).getD 0)) ∧ tries.Nodup ∧
      (∀ tried, tried ∈ tries ↔ ∃ position, chain.asked question = some position ∧
        chain.Due last position tried) ∧
      ∀ {n : Type → Type} [Monad n] [LawfulMonad n]
        (note : Nat → Except Fault Outcome → n PUnit),
        chain.askBy (chain.noted note) memo question =
          chain.noteAll note tries >>= fun _ => pure (reply, after) := by
  cases hasked : chain.asked question with
  | none =>
      obtain ⟨reply, htruthful, hask⟩ := askBy_of_not_asked hasked memo
      refine ⟨reply, memo, [], htruthful, ?_, List.nodup_nil, ?_, fun note => ?_⟩
      · rw [Option.getD_none, Nat.max_zero]
        exact hmemo
      · simp
      · simp [hask, noteAll]
  | some position =>
      have htarget := target_of_asked hasked
      obtain ⟨after, tries, hafter, hnodup, hdue, hreach⟩ := reach_noted hmemo position
      refine ⟨question.read ((chain.course position).mapError .rewrite), after, tries,
        (truthful_iff_of_position htarget).mpr rfl, hafter, hnodup, ?_, fun note => ?_⟩
      · simpa using hdue
      · rw [askBy_of_position htarget, hreach note, bind_assoc]
        simp

end Chain

end TreePass
