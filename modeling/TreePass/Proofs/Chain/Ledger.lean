import Mathlib.Data.List.Nodup
import TreePass.Proofs.Chain.Reach

/-!
# What runs cost

A ledger records every run of the steps of a position, and whether it succeeded.
An interview that starts from a fresh memo runs every position that it comes to
know exactly once. The position that fails is never known, so that it is run
again by each question that asks for it or for a later one; and no later
position is ever run.
-/

namespace TreePass

/-- One run of the steps of a position. -/
structure Run where
  position : Nat
  succeeded : Bool
deriving DecidableEq, Repr

namespace Chain

/-- Enters a run at the end of the ledger. -/
def enter (position : Nat) (answer : Except Fault Outcome) :
    StateT (List Run) (Except Fault) PUnit :=
  modify fun log => log ++ [⟨position, answer.isOk⟩]

/-- Runs the steps of a position, and enters the run. -/
def recorded (chain : Chain (Except Fault)) (position : Nat) (forest : Forest) :
    StateT (List Run) (Except Fault) (Except Fault Outcome) := do
  let answer ← chain.run position forest
  enter position answer
  pure answer

/-- The furthest position that questions ask for; 0 if they ask for none. -/
def furthest (chain : Chain (Except Fault)) (questions : List (Question (Except Fault))) : Nat :=
  (questions.filterMap chain.asked).foldl max 0

def courseRun (chain : Chain (Except Fault)) (position : Nat) : Run :=
  ⟨position, (chain.course position).isOk⟩

variable {chain : Chain (Except Fault)}

theorem recorded_eq_noted (chain : Chain (Except Fault)) :
    chain.recorded = chain.noted enter := by
  funext position forest
  rw [recorded, run_eq_noted]
  rfl

theorem noteAll_enter (chain : Chain (Except Fault)) (positions : List Nat) (log : List Run) :
    (chain.noteAll enter positions).run log =
      .ok (⟨⟩, log ++ positions.map chain.courseRun) := by
  induction positions generalizing log with
  | nil =>
      rw [List.map_nil, List.append_nil]
      rfl
  | cons position rest ih =>
      have hrest := ih (log ++ [chain.courseRun position])
      rw [List.append_assoc, List.singleton_append, ← List.map_cons] at hrest
      exact hrest

theorem isOk_course_iff {position : Nat} :
    (chain.course position).isOk = true ↔ ∃ outcome, chain.course position = .ok outcome := by
  cases chain.course position <;> simp [Except.isOk, Except.toBool]

theorem furthest_append (past : List (Question (Except Fault)))
    (question : Question (Except Fault)) :
    chain.furthest (past ++ [question]) =
      max (chain.furthest past) ((chain.asked question).getD 0) := by
  rw [furthest, furthest, List.filterMap_append, List.foldl_append]
  cases hasked : chain.asked question <;> simp [hasked]

theorem count_courseRun {positions : List Nat} (hnodup : positions.Nodup) (run : Run) :
    (positions.map chain.courseRun).count run =
      if run.position ∈ positions ∧ (chain.course run.position).isOk = run.succeeded then 1
      else 0 := by
  have hinjective : Function.Injective chain.courseRun := fun position other heq =>
    congrArg Run.position heq
  rw [List.Nodup.count (hnodup.map hinjective)]
  refine if_congr ?_ rfl rfl
  rw [List.mem_map]
  constructor
  · rintro ⟨position, hmem, rfl⟩
    exact ⟨hmem, rfl⟩
  · rintro ⟨hmem, hsucceeded⟩
    refine ⟨run.position, hmem, ?_⟩
    rw [courseRun, hsucceeded]

/-! ## Keeping the ledger -/

theorem due_iff_of_ok {last position : Nat} {question : Question (Except Fault)}
    (hok : ∃ outcome, chain.course position = .ok outcome) :
    (∃ asked, chain.asked question = some asked ∧ chain.Due last asked position) ↔
      last < position ∧ position ≤ (chain.asked question).getD 0 := by
  obtain ⟨outcome, hok⟩ := hok
  constructor
  · rintro ⟨asked, hasked, hle, ⟨hlt, -⟩ | ⟨fault, hfails⟩⟩
    · rw [hasked]
      exact ⟨hlt, hle⟩
    · rw [hfails.course_eq] at hok
      cases hok
  · rintro ⟨hlt, hle⟩
    cases hasked : chain.asked question with
    | none =>
        rw [hasked] at hle
        exact absurd hle (Nat.not_le_of_lt (Nat.zero_lt_of_lt hlt))
    | some asked =>
        rw [hasked] at hle
        exact ⟨asked, rfl, hle, .inl ⟨hlt, outcome, hok⟩⟩

theorem due_iff_of_fails {last asked position : Nat} {fault : Fault}
    (hfails : chain.FailsAt fault position) :
    chain.Due last asked position ↔ position ≤ asked :=
  ⟨fun hdue => hdue.1, fun hle => ⟨hle, .inr ⟨fault, hfails⟩⟩⟩

/-- What is kept while questions are asked: the memo follows the course as far as
they asked, every position on the way was run once, and a position that fails was
run by each question that came so far. -/
structure Ledger (chain : Chain (Except Fault)) (past : List (Question (Except Fault)))
    (memo : Memo) (log : List Run) : Prop where
  follows : memo.Follows chain (chain.furthest past)
  count_succeeded : ∀ position, log.count ⟨position, true⟩ =
    if 0 < position ∧ position ≤ chain.furthest past ∧ (chain.course position).isOk then 1 else 0
  count_failed : ∀ fault position, chain.FailsAt fault position →
    log.count ⟨position, false⟩ = (past.filterMap chain.asked).countP (position ≤ ·)
  fails : ∀ run ∈ log, run.succeeded = false → ∃ fault, chain.FailsAt fault run.position

theorem ledger_fresh (chain : Chain (Except Fault)) : chain.Ledger [] .fresh [] where
  follows := Memo.follows_fresh chain
  count_succeeded position := by
    rw [List.count_nil, if_neg]
    rintro ⟨hpos, hle, -⟩
    exact absurd hle (Nat.not_le_of_lt hpos)
  count_failed _ _ _ := rfl
  fails run hrun := absurd hrun List.not_mem_nil

/-- A question adds the runs that are due to the ledger. -/
theorem Ledger.ask {past : List (Question (Except Fault))} {memo after : Memo}
    {log : List Run} {question : Question (Except Fault)} {tries : List Nat}
    (hledger : chain.Ledger past memo log) (hnodup : tries.Nodup)
    (hafter : after.Follows chain (max (chain.furthest past) ((chain.asked question).getD 0)))
    (hdue : ∀ tried, tried ∈ tries ↔ ∃ position, chain.asked question = some position ∧
      chain.Due (chain.furthest past) position tried) :
    chain.Ledger (past ++ [question]) after (log ++ tries.map chain.courseRun) where
  follows := by
    rw [furthest_append]
    exact hafter
  count_succeeded position := by
    rw [List.count_append, hledger.count_succeeded, count_courseRun hnodup, furthest_append]
    cases hok : (chain.course position).isOk with
    | false => simp
    | true =>
        have htried : position ∈ tries ↔
            chain.furthest past < position ∧ position ≤ (chain.asked question).getD 0 := by
          rw [hdue, due_iff_of_ok (isOk_course_iff.mp hok)]
        -- It was run before, or it is run now, or nobody came so far: never two of these.
        simp only [htried, and_true]
        split <;> split <;> split <;> omega
  count_failed fault position hfails := by
    have hfailed : (chain.course position).isOk = false := by rw [hfails.course_eq]; rfl
    have htried : position ∈ tries ↔ ∃ asked, chain.asked question = some asked ∧
        position ≤ asked := by
      simp only [hdue, due_iff_of_fails hfails]
    rw [List.count_append, hledger.count_failed fault position hfails, count_courseRun hnodup,
      List.filterMap_append, List.countP_append]
    simp only [hfailed, htried, and_true]
    cases hasked : chain.asked question <;> simp [hasked, List.countP_cons]
  fails run hrun hfailed := by
    rcases List.mem_append.mp hrun with hold | hnew
    · exact hledger.fails run hold hfailed
    · obtain ⟨tried, htried, rfl⟩ := List.mem_map.mp hnew
      obtain ⟨position, -, -, ⟨-, hok⟩ | hfails⟩ := (hdue tried).mp htried
      · rw [courseRun, isOk_course_iff.mpr hok] at hfailed
        cases hfailed
      · exact hfails

/-- A question is answered in the same way whether or not its runs are recorded, and
keeps the ledger. -/
theorem ask_ledger {past : List (Question (Except Fault))} {memo : Memo} {log : List Run}
    (hledger : chain.Ledger past memo log) (question : Question (Except Fault)) :
    ∃ reply after next, chain.askBy chain.run memo question = .ok (reply, after) ∧
      (chain.askBy chain.recorded memo question).run log = .ok ((reply, after), next) ∧
      chain.Ledger (past ++ [question]) after next := by
  obtain ⟨reply, after, tries, -, hafter, hnodup, hdue, hask⟩ := ask_noted hledger.follows question
  refine ⟨reply, after, _, ?_, ?_, hledger.ask hnodup hafter hdue⟩
  · rw [run_eq_noted, hask, noteAll_nothing, ok_bind]
    rfl
  · rw [recorded_eq_noted, hask, StateT.run_bind, noteAll_enter, ok_bind]
    rfl

/-- An interview keeps the ledger, question by question. -/
theorem interview_ledger {past : List (Question (Except Fault))} {memo : Memo} {log : List Run}
    (hledger : chain.Ledger past memo log) (questions : List (Question (Except Fault))) :
    ∃ replies after next, chain.interview memo questions = .ok (replies, after) ∧
      (chain.interviewBy chain.recorded memo questions).run log = .ok ((replies, after), next) ∧
      chain.Ledger (past ++ questions) after next := by
  induction questions generalizing past memo log with
  | nil => exact ⟨[], memo, log, rfl, rfl, by simpa using hledger⟩
  | cons question rest ih =>
      obtain ⟨reply, middle, next, hask, hrecorded, hnext⟩ := ask_ledger hledger question
      obtain ⟨replies, after, final, hrest, hrestRecorded, hfinal⟩ := ih hnext
      refine ⟨reply :: replies, after, final, ?_, ?_, by simpa using hfinal⟩
      · rw [interview] at hrest ⊢
        rw [interviewBy_cons, hask, ok_bind, hrest, ok_bind]
        rfl
      · rw [interviewBy_cons, StateT.run_bind, hrecorded, ok_bind, StateT.run_bind,
          hrestRecorded, ok_bind]
        rfl

/-! ## The account -/

/-- What holds of a memo and a ledger after questions that found a fresh memo. -/
structure Accounted (chain : Chain (Except Fault)) (history : List (Question (Except Fault)))
    (memo : Memo) (log : List Run) : Prop where
  /-- Known are the positions up to the furthest that was asked for, as far as none
  fails. -/
  knows_iff : ∀ position, memo.knows position = true ↔
    position ≤ chain.furthest history ∧
      ∀ failing fault, chain.FailsAt fault failing → position < failing
  knows_start : memo.knows 0 = true
  /-- A pass is known by its name exactly if its position is known. -/
  isCached_iff : ∀ name, chain.isCached memo name = true ↔
    ∃ position, chain.position? name = some position ∧ memo.knows position = true
  /-- The search for a known position stops at one. -/
  nearest_known : ∀ position, (memo.nearest position).1 ≤ position ∧
    memo.get? (memo.nearest position).1 = some (memo.nearest position).2
  /-- What is known was run with success once, apart from the start; nothing else was. -/
  succeeded_once : ∀ position, log.count ⟨position, true⟩ =
    if 0 < position ∧ memo.knows position = true then 1 else 0
  /-- Only the position that fails was run without success. -/
  failed : ∀ run ∈ log, run.succeeded = false → ∃ fault, chain.FailsAt fault run.position
  /-- The position that fails was run by every question that came so far. -/
  failing_count : ∀ failing fault, chain.FailsAt fault failing →
    (log.map Run.position).count failing =
      (history.filterMap chain.asked).countP (failing ≤ ·)
  /-- Nothing was run after the position that fails. -/
  position_le : ∀ failing fault, chain.FailsAt fault failing →
    ∀ run ∈ log, run.position ≤ failing

theorem isCached_eq_true_iff {memo : Memo} {name : String} :
    chain.isCached memo name = true ↔
      ∃ position, chain.position? name = some position ∧ memo.knows position = true :=
  Option.any_eq_true _ _

theorem Ledger.course_ok {history : List (Question (Except Fault))} {memo : Memo}
    {log : List Run} (hledger : chain.Ledger history memo log) {position : Nat}
    (hrun : ⟨position, true⟩ ∈ log) : ∃ outcome, chain.course position = .ok outcome := by
  have hpos := List.count_pos_iff.mpr hrun
  rw [hledger.count_succeeded position] at hpos
  split at hpos
  next hok => exact isOk_course_iff.mp hok.2.2
  next => exact absurd hpos (Nat.lt_irrefl 0)

/-- Of the runs of the position that fails, none succeeded. -/
theorem Ledger.count_position {history : List (Question (Except Fault))} {memo : Memo}
    {log : List Run} (hledger : chain.Ledger history memo log) {failing : Nat} {fault : Fault}
    (hfails : chain.FailsAt fault failing) :
    (log.map Run.position).count failing = log.count ⟨failing, false⟩ := by
  rw [List.count_eq_countP, List.countP_map, List.count_eq_countP]
  -- A run with success would give the position an outcome.
  refine List.countP_congr fun run hrun => ?_
  obtain ⟨position, succeeded⟩ := run
  cases succeeded with
  | false => simp
  | true =>
      obtain ⟨outcome, hok⟩ := hledger.course_ok hrun
      have hne : position ≠ failing := by
        rintro rfl
        rw [hfails.course_eq] at hok
        cases hok
      simp [hne]

theorem Ledger.accounted {history : List (Question (Except Fault))} {memo : Memo}
    {log : List Run} (hledger : chain.Ledger history memo log) :
    chain.Accounted history memo log where
  knows_iff position := by rw [hledger.follows.knows_iff, course_ok_iff]
  knows_start := hledger.follows.knows_iff.mpr ⟨Nat.zero_le _, .start, rfl⟩
  isCached_iff name := isCached_eq_true_iff
  nearest_known position :=
    ⟨(hledger.follows.nearest position).1, (hledger.follows.nearest position).2.1⟩
  succeeded_once position := by
    rw [hledger.count_succeeded]
    refine if_congr ?_ rfl rfl
    rw [hledger.follows.knows_iff, isOk_course_iff]
  failed := hledger.fails
  failing_count failing fault hfails := by
    rw [hledger.count_position hfails, hledger.count_failed fault failing hfails]
  position_le failing fault hfails run hrun := by
    obtain ⟨position, succeeded⟩ := run
    cases succeeded with
    | true => exact Nat.le_of_lt (course_ok_iff.mp (hledger.course_ok hrun) failing fault hfails)
    | false =>
        obtain ⟨other, hother⟩ := hledger.fails _ hrun rfl
        exact Nat.le_of_eq (hother.position_eq hfails)

theorem furthest_le_append (past further : List (Question (Except Fault))) :
    chain.furthest past ≤ chain.furthest (past ++ further) := by
  induction further generalizing past with
  | nil => exact Nat.le_of_eq (by rw [List.append_nil])
  | cons question rest ih =>
      have hrest := ih (past ++ [question])
      rw [furthest_append, List.append_assoc, List.singleton_append] at hrest
      exact Nat.le_trans (Nat.le_max_left _ _) hrest

/-- All questions are answered, whether or not their runs are recorded; the memo and
the runs are accounted for; and what is known stays known, whatever is asked next. -/
theorem interview_accounted (chain : Chain (Except Fault))
    (history : List (Question (Except Fault))) :
    ∃ replies memo log, chain.interview .fresh history = .ok (replies, memo) ∧
      (chain.interviewBy chain.recorded .fresh history).run [] = .ok ((replies, memo), log) ∧
      chain.Accounted history memo log ∧
      ∀ further replies later, chain.interview .fresh (history ++ further) = .ok (replies, later) →
        ∀ name, chain.isCached memo name = true → chain.isCached later name = true := by
  obtain ⟨replies, memo, log, hrun, hrecorded, hledger⟩ :=
    interview_ledger (ledger_fresh chain) history
  refine ⟨replies, memo, log, hrun, hrecorded, hledger.accounted, ?_⟩
  intro further replies' later hlater name hcached
  -- What a ledger says of the longer history is said of the same memo.
  obtain ⟨_, after, _, hafter, -, hnext⟩ :=
    interview_ledger (ledger_fresh chain) (history ++ further)
  rw [hlater] at hafter
  cases hafter
  rw [List.nil_append] at hnext hledger
  obtain ⟨position, hposition, hknown⟩ := isCached_eq_true_iff.mp hcached
  obtain ⟨hle, hok⟩ := hledger.follows.knows_iff.mp hknown
  refine isCached_eq_true_iff.mpr ⟨position, hposition, ?_⟩
  exact hnext.follows.knows_iff.mpr ⟨Nat.le_trans hle (furthest_le_append history further), hok⟩

/-- The second pass fails and is run again by each question that asks for it; the first one is
run once and is known. -/
theorem interview_accounted_broken :
    ∃ replies memo log,
      brokenChain.interview .fresh [.finalTree, .tally "seed", .tree "break"] =
        .ok (replies, memo) ∧
      (brokenChain.interviewBy brokenChain.recorded .fresh
        [.finalTree, .tally "seed", .tree "break"]).run [] = .ok ((replies, memo), log) ∧
      log = [⟨1, true⟩, ⟨2, false⟩, ⟨2, false⟩] ∧
      brokenChain.isCached memo "seed" = true ∧ ¬ brokenChain.isCached memo "break" = true := by
  obtain ⟨replies, memo, log, hrun, hrecorded, haccounted, -⟩ :=
    interview_accounted brokenChain [.finalTree, .tally "seed", .tree "break"]
  have hlog : ((brokenChain.interviewBy brokenChain.recorded .fresh
      [.finalTree, .tally "seed", .tree "break"]).run []).map Prod.snd =
        .ok [⟨1, true⟩, ⟨2, false⟩, ⟨2, false⟩] := by
    with_unfolding_all rfl
  rw [hrecorded] at hlog
  obtain rfl : log = [⟨1, true⟩, ⟨2, false⟩, ⟨2, false⟩] := Except.ok.inj hlog
  have hfirst : memo.knows 1 = true := by simpa using haccounted.succeeded_once 1
  have hsecond : ¬ memo.knows 2 = true := by simpa using haccounted.succeeded_once 2
  refine ⟨replies, memo, _, hrun, hrecorded, rfl, ?_, fun hcached => ?_⟩
  · exact (haccounted.isCached_iff "seed").mpr ⟨1, by decide, hfirst⟩
  · obtain ⟨position, hposition, hknown⟩ := (haccounted.isCached_iff "break").mp hcached
    obtain rfl : 2 = position := Option.some.inj hposition
    exact hsecond hknown

end Chain

end TreePass
