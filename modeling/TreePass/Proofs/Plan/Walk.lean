import TreePass.Plan
import TreePass.Proofs.Answer
import TreePass.Proofs.Keyed

/-!
# The walk of a plan

From the root of a plan one walks from name to name by the links of the drafts. Building
a plan follows these links, and either raises a fault on the way or comes to the end of
the walk, with the passes on it and the names of their drafts. What is to be said of all
that it can come to is said once for each way that a turn can go.
-/

namespace TreePass.Plan

variable {m : Type → Type}

/-- Every draft is declared under the name that it has. -/
def NamesKept (plan : Plan m) : Prop :=
  ∀ entry ∈ plan.drafts, entry.1 = entry.2.name

theorem namesKept_of_drafts_eq_nil {plan : Plan m} (hnone : plan.drafts = []) :
    plan.NamesKept := by
  simp [NamesKept, hnone]

theorem NamesKept.addPass {plan : Plan m} (hnames : plan.NamesKept) (draft : PassDraft m) :
    (plan.addPass draft).2.NamesKept := by
  rw [Plan.addPass]
  split
  next => exact hnames
  next =>
    split
    next => exact hnames
    next =>
      intro entry hentry
      rcases Keyed.mem_put hentry with rfl | hold
      · rfl
      · exact hnames entry hold

theorem NamesKept.draft_name {plan : Plan m} (hnames : plan.NamesKept) {name : String}
    {draft : PassDraft m} (hdraft : plan.draft? name = some draft) : draft.name = name :=
  (hnames _ (Keyed.mem_of_get? hdraft)).symm

/-! ## The walk along the links -/

/-- The name that the walk from a root meets after a number of links; there is
none once a draft links to no pass or a name is not declared. -/
def station (plan : Plan m) (root : String) : Nat → Option String
  | 0 => some root
  | position + 1 =>
      ((plan.station root position).bind plan.draft?).bind fun draft => link draft.next

/-- The name before a position of the walk; the head of the chain comes before the
root. -/
def predecessor (plan : Plan m) (root : String) : Nat → String
  | 0 => emptyPassName
  | position + 1 => (plan.station root position).getD emptyPassName

/-- The pass at a position of the walk, as a chain holds it: what its draft
declares, between the names that the walk meets before and after it. -/
def linked? (plan : Plan m) (root : String) (position : Nat) : Option (Pass m) :=
  (plan.station root position).bind fun name =>
    (plan.draft? name).map fun draft =>
      { name, documentation := draft.documentation, steps := draft.steps,
        previous := some (plan.predecessor root position),
        next := plan.station root (position + 1) }

variable {plan : Plan m} {root : String}

theorem station_succ {position : Nat} {name : String} {draft : PassDraft m}
    (hname : plan.station root position = some name) (hdraft : plan.draft? name = some draft) :
    plan.station root (position + 1) = link draft.next := by
  rw [station, hname, Option.bind_some, hdraft, Option.bind_some]

theorem station_add_eq_none {position : Nat} (hnone : plan.station root position = none)
    (more : Nat) : plan.station root (position + more) = none := by
  induction more with
  | zero => exact hnone
  | succ more ih => rw [← Nat.add_assoc, station, ih, Option.bind_none, Option.bind_none]

theorem station_eq_none_of_le {position later : Nat} (hnone : plan.station root position = none)
    (hle : position ≤ later) : plan.station root later = none := by
  obtain ⟨more, rfl⟩ := Nat.exists_eq_add_of_le hle
  exact station_add_eq_none hnone more

theorem predecessor_succ {position : Nat} {name : String}
    (hname : plan.station root position = some name) :
    plan.predecessor root (position + 1) = name := by
  rw [predecessor, hname, Option.getD_some]

theorem linked?_of_off {position : Nat} (hnone : plan.station root position = none) :
    plan.linked? root position = none := by
  rw [linked?, hnone, Option.bind_none]

theorem linked?_of_draft {position : Nat} {name : String} {draft : PassDraft m}
    (hname : plan.station root position = some name) (hdraft : plan.draft? name = some draft) :
    plan.linked? root position = some
      { name, documentation := draft.documentation, steps := draft.steps,
        previous := some (plan.predecessor root position), next := link draft.next } := by
  rw [linked?, hname, Option.bind_some, hdraft, Option.map_some, station_succ hname hdraft]

/-- The passes from a position on are the one there and those from the next one on. -/
theorem linked?_cons {position : Nat} {pass : Pass m} {passes : List (Pass m)}
    (hpass : plan.linked? root position = some pass)
    (hpasses : ∀ offset, passes[offset]? = plan.linked? root (position + 1 + offset))
    (offset : Nat) : (pass :: passes)[offset]? = plan.linked? root (position + offset) := by
  cases offset with
  | zero => exact hpass.symm
  | succ offset => rw [List.getElem?_cons_succ, hpasses, Nat.add_right_comm, Nat.add_assoc]

/-! ## Following the links -/

section Turns

variable {drafts : List (String × PassDraft m)} {met : List String} {previous name : String}
  {draft : PassDraft m}

theorem follow_none : follow drafts met previous none = .ok ([], met) := by
  rw [follow]

theorem follow_of_unknown (hdraft : Keyed.get? name drafts = none) :
    follow drafts met previous (some name) = .error (.passNotFound name previous) := by
  rw [follow]
  split
  next => rfl
  next hfound => rw [hdraft] at hfound; cases hfound

theorem follow_of_met (hdraft : Keyed.get? name drafts = some draft) (hmet : draft.name ∈ met) :
    follow drafts met previous (some name) = .error (.circularReference name previous) := by
  rw [follow]
  split
  next hfound => rw [hdraft] at hfound; cases hfound
  next hfound =>
    obtain rfl := Option.some.inj (hdraft.symm.trans hfound)
    rw [dif_pos hmet]

/-- What a turn makes of a draft whose name is new. -/
theorem follow_of_new (hdraft : Keyed.get? name drafts = some draft) (hnew : draft.name ∉ met) :
    follow drafts met previous (some name) =
      match (link draft.previous).filter fun declared => declared != previous with
      | some declared => .error (.inconsistentLineage name declared previous)
      | none => (follow drafts (draft.name :: met) name (link draft.next)).map fun found =>
          ({ name, documentation := draft.documentation, steps := draft.steps,
             previous := some previous, next := link draft.next } :: found.1, found.2) := by
  rw [follow]
  split
  next hfound => rw [hdraft] at hfound; cases hfound
  next hfound =>
    obtain rfl := Option.some.inj (hdraft.symm.trans hfound)
    rw [dif_neg hnew]
    rfl

end Turns

section Shown

variable {shown : Nat → Option String} {met : List String} {position : Nat}

theorem mem_cons_iff_before {name : String}
    (hmet : ∀ other, other ∈ met ↔ ∃ earlier < position, shown earlier = some other)
    (hname : shown position = some name) (other : String) :
    other ∈ name :: met ↔ ∃ earlier < position + 1, shown earlier = some other := by
  rw [List.mem_cons, hmet other]
  constructor
  · rintro (rfl | ⟨earlier, hlt, hother⟩)
    · exact ⟨position, Nat.lt_succ_self _, hname⟩
    · exact ⟨earlier, Nat.lt_succ_of_lt hlt, hother⟩
  · rintro ⟨earlier, hlt, hother⟩
    rcases Nat.lt_succ_iff_lt_or_eq.mp hlt with hlt | rfl
    · exact .inr ⟨earlier, hlt, hother⟩
    · exact .inl (Option.some.inj (hother.symm.trans hname))

/-- If nothing is shown from a position on, all that is shown is shown before it. -/
theorem mem_iff_of_off
    (hmet : ∀ other, other ∈ met ↔ ∃ earlier < position, shown earlier = some other)
    (hoff : ∀ later, position ≤ later → shown later = none) (name : String) :
    name ∈ met ↔ ∃ visited, shown visited = some name := by
  rw [hmet name]
  refine ⟨fun ⟨earlier, _, hname⟩ => ⟨earlier, hname⟩, fun ⟨visited, hname⟩ => ?_⟩
  refine ⟨visited, Nat.lt_of_not_le fun hle => ?_, hname⟩
  rw [hoff visited hle] at hname
  cases hname

end Shown

/-- Following the links from a position comes to something of a kind if each way that a
turn can end does, and if it is of the kind for a position where it is for the next. What
is invariant holds of the names that are met before each turn. -/
theorem follow_induction (plan : Plan m) (root : String) (invariant : Nat → List String → Prop)
    (kind : Nat → Except PassFault (List (Pass m) × List String) → Prop)
    (hoff : ∀ position met, invariant position met → plan.station root position = none →
      kind position (.ok ([], met)))
    (hunknown : ∀ position met name, invariant position met →
      plan.station root position = some name → plan.draft? name = none →
      kind position (.error (.passNotFound name (plan.predecessor root position))))
    (hmet : ∀ position met name draft, invariant position met →
      plan.station root position = some name → plan.draft? name = some draft →
      draft.name ∈ met →
      kind position (.error (.circularReference name (plan.predecessor root position))))
    (hstrange : ∀ position met name draft declared, invariant position met →
      plan.station root position = some name → plan.draft? name = some draft →
      draft.name ∉ met →
      (link draft.previous).filter (fun declared => declared != plan.predecessor root position) =
        some declared →
      kind position (.error (.inconsistentLineage name declared (plan.predecessor root position))))
    (hnew : ∀ position met name draft, invariant position met →
      plan.station root position = some name → plan.draft? name = some draft →
      draft.name ∉ met →
      (link draft.previous).filter (fun declared => declared != plan.predecessor root position) =
        none →
      invariant (position + 1) (draft.name :: met) ∧
        ∀ answer pass, kind (position + 1) answer → plan.linked? root position = some pass →
          kind position (answer.map fun found => (pass :: found.1, found.2)))
    {position : Nat} {met : List String} (hinvariant : invariant position met) :
    kind position (follow plan.drafts met (plan.predecessor root position)
      (plan.station root position)) := by
  -- Each turn meets the name of one more of the finitely many drafts.
  induction hbound : unmet plan.drafts met using Nat.strongRecOn generalizing met position with
  | _ bound ih =>
      cases hname : plan.station root position with
      | none =>
          rw [follow_none]
          exact hoff position met hinvariant hname
      | some name =>
          cases hdraft : plan.draft? name with
          | none =>
              rw [follow_of_unknown hdraft]
              exact hunknown position met name hinvariant hname hdraft
          | some draft =>
              by_cases hseen : draft.name ∈ met
              · rw [follow_of_met hdraft hseen]
                exact hmet position met name draft hinvariant hname hdraft hseen
              · rw [follow_of_new hdraft hseen]
                cases hdeclared : (link draft.previous).filter fun declared =>
                    declared != plan.predecessor root position with
                | some declared =>
                    exact hstrange position met name draft declared hinvariant hname hdraft hseen
                      hdeclared
                | none =>
                    have hless := unmet_cons_lt hdraft hseen
                    obtain ⟨hkept, hrest⟩ :=
                      hnew position met name draft hinvariant hname hdraft hseen hdeclared
                    have hfollowed := ih _ (hbound ▸ hless) hkept rfl
                    rw [predecessor_succ hname, station_succ hname hdraft] at hfollowed
                    exact hrest _ _ hfollowed (linked?_of_draft hname hdraft)

/-! ## Building a plan -/

/-- Whether a name can be that of the first pass of a chain. -/
def MayHead (root : String) : Prop :=
  root ≠ "" ∧ isReservedPassName root = false

theorem mayHead_iff : MayHead root ↔ (root.isEmpty || isReservedPassName root) = false := by
  simp [MayHead]

theorem build_of_invalid (hroot : ¬ MayHead (plan.root.getD "")) :
    plan.build = .error (.invalidRootName (plan.root.getD "")) := by
  have hinvalid := (Bool.not_eq_false _).mp (mt mayHead_iff.mpr hroot)
  simp only [build, hinvalid, if_true]
  rfl

theorem build_of_fault (hroot : plan.root = some root) (hmay : MayHead root)
    {fault : PassFault} (hfollow : follow plan.drafts [] emptyPassName (some root) = .error fault) :
    plan.build = .error fault := by
  simp only [build, hroot, Option.getD_some, mayHead_iff.mp hmay, hfollow]
  rfl

theorem build_of_unreached (hroot : plan.root = some root) (hmay : MayHead root)
    {passes : List (Pass m)} {met : List String} {name : String}
    (hfollow : follow plan.drafts [] emptyPassName (some root) = .ok (passes, met))
    (hreject : plan.settings.rejectUnreachable = true)
    (hname : firstUnreached plan.drafts met = some name) :
    plan.build = .error (.unreachablePass name) := by
  simp only [build, hroot, Option.getD_some, mayHead_iff.mp hmay, hfollow, ok_bind, hreject,
    if_true, hname]
  rfl

theorem build_of_linked (hroot : plan.root = some root) (hmay : MayHead root)
    {passes : List (Pass m)} {met : List String}
    (hfollow : follow plan.drafts [] emptyPassName (some root) = .ok (passes, met))
    (hreach : plan.settings.rejectUnreachable = true → firstUnreached plan.drafts met = none) :
    plan.build = .ok
      { passes := .sentinel root :: passes, rewriter := plan.settings.rewriter } := by
  simp only [build, hroot, Option.getD_some, mayHead_iff.mp hmay, hfollow, ok_bind]
  cases hreject : plan.settings.rejectUnreachable with
  | false => rfl
  | true =>
      rw [hreach hreject]
      rfl

/-- What building a plan comes to, by what following its links comes to. -/
inductive Concluded (plan : Plan m) : Except PassFault (Chain m) → Prop where
  | invalid (hroot : ¬ MayHead (plan.root.getD "")) :
      Concluded plan (.error (.invalidRootName (plan.root.getD "")))
  | fault {root : String} {fault : PassFault} (hroot : plan.root = some root) (hmay : MayHead root)
      (hfollow : follow plan.drafts [] emptyPassName (some root) = .error fault) :
      Concluded plan (.error fault)
  | unreached {root name : String} {passes : List (Pass m)} {met : List String}
      (hroot : plan.root = some root) (hmay : MayHead root)
      (hfollow : follow plan.drafts [] emptyPassName (some root) = .ok (passes, met))
      (hreject : plan.settings.rejectUnreachable = true)
      (hname : firstUnreached plan.drafts met = some name) :
      Concluded plan (.error (.unreachablePass name))
  | linked {root : String} {passes : List (Pass m)} {met : List String}
      (hroot : plan.root = some root) (hmay : MayHead root)
      (hfollow : follow plan.drafts [] emptyPassName (some root) = .ok (passes, met))
      (hreach : plan.settings.rejectUnreachable = true → firstUnreached plan.drafts met = none) :
      Concluded plan (.ok
        { passes := .sentinel root :: passes, rewriter := plan.settings.rewriter })

theorem build_concluded (plan : Plan m) : plan.Concluded plan.build := by
  by_cases hmay : MayHead (plan.root.getD "")
  · obtain ⟨root, hroot⟩ : ∃ root, plan.root = some root := by
      cases hroot : plan.root with
      | none => simp [hroot, MayHead] at hmay
      | some root => exact ⟨root, rfl⟩
    rw [hroot, Option.getD_some] at hmay
    cases hfollow : follow plan.drafts [] emptyPassName (some root) with
    | error fault =>
        rw [build_of_fault hroot hmay hfollow]
        exact .fault hroot hmay hfollow
    | ok found =>
        obtain ⟨passes, met⟩ := found
        by_cases hreach : plan.settings.rejectUnreachable = true →
            firstUnreached plan.drafts met = none
        · rw [build_of_linked hroot hmay hfollow hreach]
          exact .linked hroot hmay hfollow hreach
        · obtain ⟨hreject, hsome⟩ := Classical.not_imp.mp hreach
          obtain ⟨name, hname⟩ := Option.ne_none_iff_exists'.mp hsome
          rw [build_of_unreached hroot hmay hfollow hreject hname]
          exact .unreached hroot hmay hfollow hreject hname
  · rw [build_of_invalid hmay]
    exact .invalid hmay

end TreePass.Plan
