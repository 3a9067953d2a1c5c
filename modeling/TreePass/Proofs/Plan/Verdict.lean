import TreePass.Proofs.Plan.Walk

/-!
# The verdict on a plan

From the root of a plan one walks from name to name by the links of the drafts.
What is wrong with a position of this walk can be said without building
anything: the name may not be declared, it may have been met before, or its draft
may expect another predecessor. The verdict on a plan is its first defect, where
a root that cannot head a chain comes before all positions and a declared pass
off the walk comes after all of them. Every plan has exactly one verdict, and
building it answers that verdict.
-/

namespace TreePass.Plan

variable {m : Type → Type}

/-- What is wrong with a position of the walk, if it is reached. A name that is
not declared comes first, then one that was met before, and last a draft that
expects another predecessor. -/
def defect? (plan : Plan m) (root : String) (position : Nat) : Option PassFault :=
  (plan.station root position).bind fun name =>
    let previous := plan.predecessor root position
    match plan.draft? name with
    | none => some (.passNotFound name previous)
    | some draft =>
        if ∃ earlier < position, plan.station root earlier = some name then
          some (.circularReference name previous)
        else
          match link draft.previous with
          | none => none
          | some declared =>
              if declared = previous then none
              else some (.inconsistentLineage name declared previous)

/-- The walk from a root ends, and nothing on it is wrong. -/
structure Flawless (plan : Plan m) (root : String) : Prop where
  ends : ∃ position, plan.station root position = none
  no_defect : ∀ position, plan.defect? root position = none

/-- A declared name off the walk; those declared before it are on the walk. -/
structure FirstOffWalk (plan : Plan m) (root name : String) : Prop where
  off_walk : ∀ position, plan.station root position ≠ some name
  first : ∃ earlier later, Keyed.keys plan.drafts = earlier ++ name :: later ∧
    ∀ other ∈ earlier, ∃ position, plan.station root position = some other

/-- The verdict on a plan: its first defect, or the chain that it describes. -/
inductive Verdict (plan : Plan m) : Except PassFault (Chain m) → Prop where
  /-- An absent root counts as an empty one. -/
  | invalidRoot (hroot : ¬ MayHead (plan.root.getD "")) :
      Verdict plan (.error (.invalidRootName (plan.root.getD "")))
  | defect {root : String} {position : Nat} {fault : PassFault}
      (hroot : plan.root = some root) (hmay : MayHead root)
      (hfault : plan.defect? root position = some fault)
      (hfirst : ∀ earlier < position, plan.defect? root earlier = none) :
      Verdict plan (.error fault)
  | unreachable {root name : String}
      (hroot : plan.root = some root) (hmay : MayHead root) (hwalk : plan.Flawless root)
      (hreject : plan.settings.rejectUnreachable = true) (hname : plan.FirstOffWalk root name) :
      Verdict plan (.error (.unreachablePass name))
  | linked {root : String} {chain : Chain m}
      (hroot : plan.root = some root) (hmay : MayHead root) (hwalk : plan.Flawless root)
      (hreach : plan.settings.rejectUnreachable = true →
        ∀ name ∈ Keyed.keys plan.drafts, ∃ position, plan.station root position = some name)
      (hhead : chain.passes[0]? = some (.sentinel root))
      (hpasses : ∀ position, chain.passes[position + 1]? = plan.linked? root position)
      (hrewriter : chain.rewriter = plan.settings.rewriter) :
      Verdict plan (.ok chain)

variable {plan : Plan m} {root : String}

theorem defect?_of_off {position : Nat} (hnone : plan.station root position = none) :
    plan.defect? root position = none := by
  rw [defect?, hnone, Option.bind_none]

theorem defect?_of_unknown {position : Nat} {name : String}
    (hname : plan.station root position = some name) (hdraft : plan.draft? name = none) :
    plan.defect? root position = some (.passNotFound name (plan.predecessor root position)) := by
  simp only [defect?, hname, Option.bind_some, hdraft]

theorem defect?_of_met {position : Nat} {name : String} {draft : PassDraft m}
    (hname : plan.station root position = some name) (hdraft : plan.draft? name = some draft)
    (hearlier : ∃ earlier < position, plan.station root earlier = some name) :
    plan.defect? root position =
      some (.circularReference name (plan.predecessor root position)) := by
  simp only [defect?, hname, Option.bind_some, hdraft, if_pos hearlier]

/-- All that can be wrong with a declared name that is new is the predecessor that
its draft expects. -/
theorem defect?_of_new {position : Nat} {name : String} {draft : PassDraft m}
    (hname : plan.station root position = some name) (hdraft : plan.draft? name = some draft)
    (hnew : ¬ ∃ earlier < position, plan.station root earlier = some name) :
    plan.defect? root position =
      ((link draft.previous).filter fun declared =>
        declared != plan.predecessor root position).map fun declared =>
          .inconsistentLineage name declared (plan.predecessor root position) := by
  simp only [defect?, hname, Option.bind_some, hdraft, if_neg hnew]
  cases link draft.previous with
  | none => rfl
  | some declared =>
      by_cases heq : declared = plan.predecessor root position <;> simp [Option.filter, heq]

/-! ## Following the links -/

/-- The names met before a position of the walk. -/
def MetBefore (plan : Plan m) (root : String) (met : List String) (position : Nat) : Prop :=
  ∀ name, name ∈ met ↔ ∃ earlier < position, plan.station root earlier = some name

/-- What following the links from a position on comes to: the first defect from
there on, or the passes from there on and all names of the walk. -/
inductive Followed (plan : Plan m) (root : String) (position : Nat) :
    Except PassFault (List (Pass m) × List String) → Prop where
  | defect {found : Nat} {fault : PassFault} (hfault : plan.defect? root found = some fault)
      (hfirst : ∀ earlier < found, plan.defect? root earlier = none) :
      Followed plan root position (.error fault)
  | passes {passes : List (Pass m)} {met : List String} (hwalk : plan.Flawless root)
      (hmet : ∀ name, name ∈ met ↔ ∃ visited, plan.station root visited = some name)
      (hpasses : ∀ offset, passes[offset]? = plan.linked? root (position + offset)) :
      Followed plan root position (.ok (passes, met))

/-- Following the links from any position finds the first defect of the walk or
comes to its end. -/
theorem follow_followed (hnames : plan.NamesKept) {met : List String} {position : Nat}
    (hmet : plan.MetBefore root met position)
    (hsound : ∀ earlier < position, plan.defect? root earlier = none) :
    Followed plan root position (follow plan.drafts met (plan.predecessor root position)
      (plan.station root position)) := by
  refine follow_induction plan root
    (fun position met => plan.MetBefore root met position ∧
      ∀ earlier < position, plan.defect? root earlier = none)
    (Followed plan root) ?off ?unknown ?met ?strange ?new ⟨hmet, hsound⟩
  case off =>
    intro position met ⟨hmet, hsound⟩ hoff
    refine .passes ⟨⟨position, hoff⟩, fun other => ?_⟩
      (mem_iff_of_off hmet fun later => station_eq_none_of_le hoff) fun offset => ?_
    · rcases Nat.lt_or_ge other position with hlt | hle
      · exact hsound other hlt
      · exact defect?_of_off (station_eq_none_of_le hoff hle)
    · rw [linked?_of_off (station_eq_none_of_le hoff (Nat.le_add_right _ _))]
      rfl
  case unknown =>
    intro position met name ⟨_, hsound⟩ hname hdraft
    exact .defect (defect?_of_unknown hname hdraft) hsound
  case met =>
    intro position met name draft ⟨hmet, hsound⟩ hname hdraft hseen
    have hearlier := (hmet name).mp (hnames.draft_name hdraft ▸ hseen)
    exact .defect (defect?_of_met hname hdraft hearlier) hsound
  case strange =>
    intro position met name draft declared ⟨hmet, hsound⟩ hname hdraft hnew hdeclared
    have hdefect := defect?_of_new hname hdraft fun hearlier =>
      hnew (hnames.draft_name hdraft ▸ (hmet name).mpr hearlier)
    rw [hdeclared] at hdefect
    exact .defect hdefect hsound
  case new =>
    intro position met name draft ⟨hmet, hsound⟩ hname hdraft hnew hdeclared
    have hself := hnames.draft_name hdraft
    have hdefect := defect?_of_new hname hdraft fun hearlier =>
      hnew (hself ▸ (hmet name).mpr hearlier)
    rw [hdeclared] at hdefect
    refine ⟨⟨hself.symm ▸ mem_cons_iff_before hmet hname,
      Nat.forall_lt_succ_right.mpr ⟨hsound, hdefect⟩⟩, fun answer pass hrest hpass => ?_⟩
    cases hrest with
    | defect hfault hfirst => exact .defect hfault hfirst
    | passes hwalk hvisited hpasses => exact .passes hwalk hvisited (linked?_cons hpass hpasses)

theorem follow_root (hnames : plan.NamesKept) (root : String) :
    Followed plan root 0 (follow plan.drafts [] emptyPassName (some root)) := by
  have hmet : plan.MetBefore root [] 0 := fun name => by simp
  exact follow_followed hnames hmet (by simp)

theorem follow_of_defect (hnames : plan.NamesKept) {position : Nat} {fault : PassFault}
    (hfault : plan.defect? root position = some fault)
    (hfirst : ∀ earlier < position, plan.defect? root earlier = none) :
    follow plan.drafts [] emptyPassName (some root) = .error fault := by
  have hfollowed := follow_root hnames root
  generalize follow plan.drafts [] emptyPassName (some root) = answer at hfollowed
  cases hfollowed with
  | @defect found other hother hbefore =>
      -- Two first defects are at one position.
      have hposition : found = position := by
        rcases Nat.lt_trichotomy found position with hlt | heq | hgt
        · rw [hfirst found hlt] at hother
          cases hother
        · exact heq
        · rw [hbefore position hgt] at hfault
          cases hfault
      rw [hposition, hfault] at hother
      rw [Option.some.inj hother]
  | passes hwalk =>
      rw [hwalk.no_defect position] at hfault
      cases hfault

theorem follow_of_flawless (hnames : plan.NamesKept) (hwalk : plan.Flawless root) :
    ∃ passes met, follow plan.drafts [] emptyPassName (some root) = .ok (passes, met) ∧
      (∀ name, name ∈ met ↔ ∃ visited, plan.station root visited = some name) ∧
      ∀ position, passes[position]? = plan.linked? root position := by
  have hfollowed := follow_root hnames root
  generalize follow plan.drafts [] emptyPassName (some root) = answer at hfollowed
  cases hfollowed with
  | @defect found fault hfault _ =>
      rw [hwalk.no_defect found] at hfault
      cases hfault
  | @passes passes met _ hmet hpasses =>
      exact ⟨passes, met, rfl, hmet, fun position => by rw [hpasses, Nat.zero_add]⟩

/-! ## Building a plan -/

theorem firstUnreached_eq_some_iff {met : List String} {name : String}
    (hmet : ∀ name, name ∈ met ↔ ∃ visited, plan.station root visited = some name) :
    firstUnreached plan.drafts met = some name ↔ plan.FirstOffWalk root name := by
  rw [firstUnreached, List.find?_eq_some_iff_append]
  constructor
  · rintro ⟨hoff, earlier, later, hkeys, hearlier⟩
    refine ⟨fun position hname => ?_, earlier, later, hkeys, fun other hother => ?_⟩
    · have hmem := (hmet name).mpr ⟨position, hname⟩
      simp [hmem] at hoff
    · exact (hmet other).mp (by simpa using hearlier other hother)
  · rintro ⟨hoff, earlier, later, hkeys, hearlier⟩
    refine ⟨?_, earlier, later, hkeys, fun other hother => ?_⟩
    · have hnew : name ∉ met := fun hmem =>
        let ⟨position, hname⟩ := (hmet name).mp hmem
        hoff position hname
      simpa using hnew
    · simpa using (hmet other).mpr (hearlier other hother)

theorem firstUnreached_eq_none_iff {met : List String}
    (hmet : ∀ name, name ∈ met ↔ ∃ visited, plan.station root visited = some name) :
    firstUnreached plan.drafts met = none ↔
      ∀ name ∈ Keyed.keys plan.drafts, ∃ position, plan.station root position = some name := by
  simp [firstUnreached, hmet]

/-- Every plan has a verdict. -/
theorem exists_verdict (hnames : plan.NamesKept) : ∃ answer, plan.Verdict answer := by
  have hconcluded := plan.build_concluded
  generalize plan.build = answer at hconcluded
  refine ⟨answer, ?_⟩
  cases hconcluded with
  | invalid hroot => exact .invalidRoot hroot
  | @fault root _ hroot hmay hfollow =>
      have hfollowed := follow_root hnames root
      rw [hfollow] at hfollowed
      cases hfollowed with
      | defect hfault hfirst => exact .defect hroot hmay hfault hfirst
  | @unreached root _ _ _ hroot hmay hfollow hreject hname =>
      have hfollowed := follow_root hnames root
      rw [hfollow] at hfollowed
      cases hfollowed with
      | passes hwalk hmet _ =>
          exact .unreachable hroot hmay hwalk hreject ((firstUnreached_eq_some_iff hmet).mp hname)
  | @linked root _ _ hroot hmay hfollow hreach =>
      have hfollowed := follow_root hnames root
      rw [hfollow] at hfollowed
      cases hfollowed with
      | passes hwalk hmet hpasses =>
          refine .linked hroot hmay hwalk ?_ rfl (fun position => ?_) rfl
          · exact fun hreject => (firstUnreached_eq_none_iff hmet).mp (hreach hreject)
          · rw [List.getElem?_cons_succ, hpasses, Nat.zero_add]

/-- Building answers every verdict that a plan has. -/
theorem Verdict.build_eq (hnames : plan.NamesKept) {answer : Except PassFault (Chain m)}
    (hverdict : plan.Verdict answer) : plan.build = answer := by
  cases hverdict with
  | invalidRoot hroot => exact build_of_invalid hroot
  | defect hroot hmay hfault hfirst =>
      exact build_of_fault hroot hmay (follow_of_defect hnames hfault hfirst)
  | unreachable hroot hmay hwalk hreject hname =>
      obtain ⟨passes, met, hfollow, hmet, -⟩ := follow_of_flawless hnames hwalk
      exact build_of_unreached hroot hmay hfollow hreject
        ((firstUnreached_eq_some_iff hmet).mpr hname)
  | @linked root chain hroot hmay hwalk hreach hhead hpasses hrewriter =>
      obtain ⟨passes, met, hfollow, hmet, hlinked⟩ := follow_of_flawless hnames hwalk
      rw [build_of_linked hroot hmay hfollow fun hreject =>
        (firstUnreached_eq_none_iff hmet).mpr (hreach hreject)]
      obtain ⟨chained, rewriter⟩ := chain
      obtain rfl : rewriter = plan.settings.rewriter := hrewriter
      have hchained : .sentinel root :: passes = chained := by
        refine List.ext_getElem? fun position => ?_
        cases position with
        | zero => exact hhead.symm
        | succ position => exact (hlinked position).trans (hpasses position).symm
      rw [hchained]

/-- Every plan whose drafts keep their names has one verdict, and building the plan
answers it. -/
theorem build_eq_iff_verdict (hnames : plan.NamesKept) (answer : Except PassFault (Chain m)) :
    plan.build = answer ↔ plan.Verdict answer := by
  constructor
  · rintro rfl
    obtain ⟨answer, hverdict⟩ := exists_verdict hnames
    rwa [hverdict.build_eq hnames]
  · exact Verdict.build_eq hnames

/-- Three passes of which the last links back to the second and expects to follow
the first, and a fourth one that no link leads to. -/
def knot : Plan (Except Fault) where
  drafts :=
    [("d", { name := "d" }),
      ("a", { name := "a", previous := some "$empty", next := some "b" }),
      ("b", { name := "b", previous := some "$null", next := some "c" }),
      ("c", { name := "c", previous := some "a", next := some "b" })]
  root := some "a"
  settings := { rejectUnreachable := true }

/-- The predecessor that the third pass expects is checked before the link back is
followed, and both before the pass off the walk is looked for. -/
theorem build_eq_iff_verdict_knot :
    knot.NamesKept ∧ knot.Verdict (.error (.inconsistentLineage "c" "a" "b")) ∧
      knot.build = .error (.inconsistentLineage "c" "a" "b") := by
  have hnames : knot.NamesKept := by simp [NamesKept, knot]
  have hfault : knot.defect? "a" 2 = some (.inconsistentLineage "c" "a" "b") := by decide
  have hfirst : ∀ earlier < 2, knot.defect? "a" earlier = none := by decide
  have hverdict : knot.Verdict (.error (.inconsistentLineage "c" "a" "b")) :=
    .defect rfl ⟨by decide, by decide⟩ hfault hfirst
  exact ⟨hnames, hverdict, (build_eq_iff_verdict hnames _).mpr hverdict⟩

end TreePass.Plan
