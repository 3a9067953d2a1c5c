import TreePass.Proofs.Plan.Walk

/-!
# Plans with renamed drafts

A draft stays under the name that it was declared with, even if it gets another name
later. Links lead to declared names, but what counts as met on the way are the names
that the drafts bear. So a walk along the links breaks off where a draft bears a name
that one of the drafts before it bears, and a declared name is missed if no draft on the
walk bears it. For drafts that keep their names this comes to the same as what is
declared; in general it does not.
-/

namespace TreePass.Plan

variable {m : Type → Type}

/-- The plans that can be reached: passes are declared, a declared one may be changed
in any way, and so may the root and the settings. -/
inductive Reachable : Plan m → Prop where
  | empty : Reachable .empty
  | setRoot {plan : Plan m} (before : Reachable plan) (root : String) :
      Reachable { plan with root := some root }
  | configure {plan : Plan m} (before : Reachable plan) (settings : Settings) :
      Reachable { plan with settings }
  | addPass {plan : Plan m} (before : Reachable plan) (draft : PassDraft m) :
      Reachable (plan.addPass draft).2
  | edit {plan : Plan m} (before : Reachable plan) (name : String)
      (f : PassDraft m → PassDraft m) : Reachable (plan.edit name f)

/-- No pass is declared under a reserved name, whatever becomes of it later. -/
theorem Reachable.key_unreserved {plan : Plan m} (hreach : plan.Reachable) :
    ∀ key ∈ Keyed.keys plan.drafts, isReservedPassName key = false := by
  induction hreach with
  | empty => simp [Plan.empty]
  | setRoot _ _ ih => exact ih
  | configure _ _ ih => exact ih
  | addPass _ draft ih =>
      rw [Plan.addPass]
      split
      next => exact ih
      next hunreserved =>
        split
        next => exact ih
        next =>
          intro key hkey
          rcases Keyed.mem_keys_put.mp hkey with rfl | hold
          · exact (Bool.not_eq_true _).mp hunreserved
          · exact ih key hold
  | edit _ name f ih =>
      rw [Plan.edit, Keyed.keys_update]
      exact ih

/-! ## Names on the walk -/

/-- The name that the draft at a position of the walk bears. -/
def borne? (plan : Plan m) (root : String) (position : Nat) : Option String :=
  ((plan.station root position).bind plan.draft?).map PassDraft.name

/-- The names that the drafts before a position of the walk bear. -/
def BorneBefore (plan : Plan m) (root : String) (met : List String) (position : Nat) : Prop :=
  ∀ name, name ∈ met ↔ ∃ earlier < position, plan.borne? root earlier = some name

/-- A position of the walk, if it is reached, has a draft with a name that no draft before
it bears. -/
def NewAt (plan : Plan m) (root : String) (position : Nat) : Prop :=
  ∀ name, plan.station root position = some name → ∃ draft, plan.draft? name = some draft ∧
    ∀ earlier < position, plan.borne? root earlier ≠ some draft.name

/-- What following the links from a position on comes to, whatever names the drafts bear:
a fault, which for a name met again says who bore it before, or the passes from there on
and the names of all drafts of the walk. -/
inductive Traced (plan : Plan m) (root : String) (position : Nat) :
    Except PassFault (List (Pass m) × List String) → Prop where
  | unknown (name previous : String) :
      Traced plan root position (.error (.passNotFound name previous))
  | again {found earlier : Nat} {name : String} {draft : PassDraft m}
      (hname : plan.station root found = some name) (hdraft : plan.draft? name = some draft)
      (hearlier : earlier < found) (hborne : plan.borne? root earlier = some draft.name) :
      Traced plan root position (.error (.circularReference name (plan.predecessor root found)))
  | strange (name declared previous : String) :
      Traced plan root position (.error (.inconsistentLineage name declared previous))
  | passes {passes : List (Pass m)} {met : List String}
      (hends : ∃ position, plan.station root position = none)
      (hnew : ∀ position, plan.NewAt root position)
      (hmet : ∀ name, name ∈ met ↔ ∃ visited, plan.borne? root visited = some name)
      (hpasses : ∀ offset, passes[offset]? = plan.linked? root (position + offset)) :
      Traced plan root position (.ok (passes, met))

variable {plan : Plan m} {root : String}

theorem borne?_of_draft {position : Nat} {name : String} {draft : PassDraft m}
    (hname : plan.station root position = some name) (hdraft : plan.draft? name = some draft) :
    plan.borne? root position = some draft.name := by
  rw [borne?, hname, Option.bind_some, hdraft, Option.map_some]

theorem borne?_of_off {position : Nat} (hnone : plan.station root position = none) :
    plan.borne? root position = none := by
  rw [borne?, hnone, Option.bind_none, Option.map_none]

theorem borne?_eq_some_iff {position : Nat} {borne : String} :
    plan.borne? root position = some borne ↔ ∃ name draft,
      plan.station root position = some name ∧ plan.draft? name = some draft ∧
        draft.name = borne := by
  simp only [borne?, Option.map_eq_some_iff, Option.bind_eq_some_iff]
  constructor
  · rintro ⟨draft, ⟨name, hname, hdraft⟩, hborne⟩
    exact ⟨name, draft, hname, hdraft, hborne⟩
  · rintro ⟨name, draft, hname, hdraft, hborne⟩
    exact ⟨draft, ⟨name, hname, hdraft⟩, hborne⟩

/-! ## Following the links -/

/-- Following the links from any position comes to the end of the walk, or to a fault that
the names which the drafts bear give rise to. -/
theorem follow_traced {met : List String} {position : Nat}
    (hmet : plan.BorneBefore root met position)
    (hnew : ∀ earlier < position, plan.NewAt root earlier) :
    Traced plan root position (follow plan.drafts met (plan.predecessor root position)
      (plan.station root position)) := by
  refine follow_induction plan root
    (fun position met => plan.BorneBefore root met position ∧
      ∀ earlier < position, plan.NewAt root earlier)
    (Traced plan root) ?off ?unknown ?met ?strange ?new ⟨hmet, hnew⟩
  case off =>
    intro position met ⟨hmet, hnew⟩ hoff
    refine .passes ⟨position, hoff⟩ (fun other name hname => ?_)
      (mem_iff_of_off hmet fun later hle => borne?_of_off (station_eq_none_of_le hoff hle))
      fun offset => ?_
    · refine hnew other (Nat.lt_of_not_le fun hle => ?_) name hname
      rw [station_eq_none_of_le hoff hle] at hname
      cases hname
    · rw [linked?_of_off (station_eq_none_of_le hoff (Nat.le_add_right _ _))]
      rfl
  case unknown => exact fun _ _ _ _ _ _ => .unknown _ _
  case met =>
    intro position met name draft ⟨hmet, _⟩ hname hdraft hseen
    obtain ⟨earlier, hlt, hborne⟩ := (hmet draft.name).mp hseen
    exact .again hname hdraft hlt hborne
  case strange => exact fun _ _ _ _ _ _ _ _ _ _ => .strange _ _ _
  case new =>
    intro position met name draft ⟨hmet, hnew⟩ hname hdraft hunseen _
    have hhere : plan.NewAt root position := by
      intro other hother
      obtain rfl := Option.some.inj (hname.symm.trans hother)
      exact ⟨draft, hdraft, fun earlier hlt hborne =>
        hunseen ((hmet draft.name).mpr ⟨earlier, hlt, hborne⟩)⟩
    refine ⟨⟨mem_cons_iff_before hmet (borne?_of_draft hname hdraft),
      Nat.forall_lt_succ_right.mpr ⟨hnew, hhere⟩⟩, fun answer pass hrest hpass => ?_⟩
    cases hrest with
    | unknown name previous => exact .unknown name previous
    | again hfound hborne hearlier hsame => exact .again hfound hborne hearlier hsame
    | strange name declared previous => exact .strange name declared previous
    | passes hends hnew hmet hpasses => exact .passes hends hnew hmet (linked?_cons hpass hpasses)

theorem traced_root (plan : Plan m) (root : String) :
    Traced plan root 0 (follow plan.drafts [] emptyPassName (some root)) := by
  have hmet : plan.BorneBefore root [] 0 := fun name => by simp
  exact follow_traced hmet (by simp)

/-! ## What a build reports -/

/-- No other draft bears the name that the draft declared under a name bears. -/
def SoleBearer (plan : Plan m) (name : String) : Prop :=
  ∀ draft, plan.draft? name = some draft →
    ∀ entry ∈ plan.drafts, entry.2.name = draft.name → entry.1 = name

/-- The draft declared under a name bears it still. -/
def KeepsName (plan : Plan m) (name : String) : Prop :=
  ∀ draft, plan.draft? name = some draft → draft.name = name

/-- A link is reported to lead back where the draft that it leads to bears a name that a
draft before it on the walk bears, and a name to be off the walk where no draft on it
bears the name. If no other draft bears the name of the first one, the link does lead
back to where the walk was before; if the second one bears its name still, the walk does
not come by it. -/
theorem reported_by_names (plan : Plan m) :
    (∀ name previous, plan.build = .error (.circularReference name previous) →
      ∃ root earlier later, plan.root = some root ∧ earlier < later ∧
        name ∈ Keyed.keys plan.drafts ∧ plan.station root later = some name ∧
        plan.predecessor root later = previous ∧
        plan.borne? root earlier = plan.borne? root later ∧
        (plan.SoleBearer name → plan.station root earlier = some name)) ∧
    ∀ name, plan.build = .error (.unreachablePass name) →
      ∃ root, plan.root = some root ∧ name ∈ Keyed.keys plan.drafts ∧
        (∀ position, plan.borne? root position ≠ some name) ∧
        (plan.KeepsName name → ∀ position, plan.station root position ≠ some name) := by
  have hconcluded := plan.build_concluded
  refine ⟨fun name previous hbuild => ?_, fun name hbuild => ?_⟩
  · rw [hbuild] at hconcluded
    cases hconcluded with
    | @fault root _ hroot _ hfollow =>
        have htraced := plan.traced_root root
        rw [hfollow] at htraced
        cases htraced with
        | @again found earlier _ draft hname hdraft hearlier hborne =>
            obtain ⟨other, sharing, hother, hsharing, hsame⟩ := borne?_eq_some_iff.mp hborne
            refine ⟨root, earlier, found, hroot, hearlier,
              Keyed.mem_keys_of_mem (Keyed.mem_of_get? hdraft), hname, rfl, ?_, fun hsole => ?_⟩
            · rw [hborne, borne?_of_draft hname hdraft]
            · have heq : other = name :=
                hsole draft hdraft (other, sharing) (Keyed.mem_of_get? hsharing) hsame
              rw [hother, heq]
  · rw [hbuild] at hconcluded
    cases hconcluded with
    | @fault root _ hroot _ hfollow =>
        have htraced := plan.traced_root root
        rw [hfollow] at htraced
        cases htraced
    | @unreached root _ passes met hroot _ hfollow _ hname =>
        have htraced := plan.traced_root root
        rw [hfollow] at htraced
        cases htraced with
        | passes _ _ hmet _ =>
            have hoff : name ∉ met := by simpa using List.find?_some hname
            have hborne (position : Nat) : plan.borne? root position ≠ some name :=
              fun hborne => hoff ((hmet name).mpr ⟨position, hborne⟩)
            have hmem : name ∈ Keyed.keys plan.drafts := List.mem_of_find?_eq_some hname
            obtain ⟨draft, hdraft⟩ := Keyed.exists_get?_of_mem_keys hmem
            refine ⟨root, hroot, hmem, hborne, fun hkeeps position hstation => ?_⟩
            exact hborne position
              (borne?_eq_some_iff.mpr ⟨name, draft, hstation, hdraft, hkeeps draft hdraft⟩)

/-- The walk of two passes, the second of which has been given another name. -/
theorem follow_couple {drafts : List (String × PassDraft m)}
    (hfirst : Keyed.get? "a" drafts = some { name := "a", next := some "b" })
    (hsecond : Keyed.get? "b" drafts = some { name := "z" }) :
    follow drafts [] emptyPassName (some "a") = .ok
      ([{ name := "a", previous := some "$empty", next := some "b" },
        { name := "b", previous := some "a" }], ["z", "a"]) := by
  have hend : follow drafts ["z", "a"] "b" none = .ok ([], ["z", "a"]) := follow_none
  have hrest : follow drafts ["a"] "a" (some "b") = .ok
      ([{ name := "b", previous := some "a" }], ["z", "a"]) :=
    (follow_of_new hsecond (by simp)).trans (congrArg (Except.map _) hend)
  exact (follow_of_new hfirst (by simp)).trans (congrArg (Except.map _) hrest)

/-- The second of two linked passes links back to the first one, and has been given another
name. -/
def coupleBack : Plan (Except Fault) where
  drafts := [("a", { name := "a", next := some "b" }), ("b", { name := "z", next := some "a" })]
  root := some "a"

/-- The same passes without the link back, and one that no link leads to. -/
def coupleAside : Plan (Except Fault) where
  drafts := [("c", { name := "c" }), ("a", { name := "a", next := some "b" }),
    ("b", { name := "z" })]
  root := some "a"
  settings := { rejectUnreachable := true }

/-- Neither report is due to the draft with another name. -/
theorem reported_by_names_couples :
    (coupleBack.build = .error (.circularReference "a" "b") ∧ coupleBack.SoleBearer "a" ∧
      ∃ root earlier later, coupleBack.root = some root ∧ earlier < later ∧
        coupleBack.station root later = some "a" ∧
        coupleBack.station root earlier = some "a") ∧
    coupleAside.build = .error (.unreachablePass "c") ∧ coupleAside.KeepsName "c" ∧
      ∃ root, coupleAside.root = some root ∧
        ∀ position, coupleAside.station root position ≠ some "c" := by
  have hfollow : follow coupleBack.drafts [] emptyPassName (some "a") =
      .error (.circularReference "a" "b") := by
    simp [coupleBack, follow, link, Option.filter_some, Keyed.get?_cons, emptyPassName,
      nullPassName]
  have hback : coupleBack.build = .error (.circularReference "a" "b") :=
    build_of_fault rfl ⟨by decide, by decide⟩ hfollow
  have haside : coupleAside.build = .error (.unreachablePass "c") :=
    build_of_unreached rfl ⟨by decide, by decide⟩ (follow_couple rfl rfl) rfl rfl
  have hsole : coupleBack.SoleBearer "a" := by
    rintro _ ⟨⟩
    simp [coupleBack]
  have hkeeps : coupleAside.KeepsName "c" := by
    rintro _ ⟨⟩
    rfl
  obtain ⟨root, earlier, later, hroot, hearlier, -, hlater, -, -, hfirst⟩ :=
    (reported_by_names coupleBack).1 _ _ hback
  obtain ⟨start, hstart, -, -, hoff⟩ := (reported_by_names coupleAside).2 _ haside
  exact ⟨⟨hback, hsole, root, earlier, later, hroot, hearlier, hlater, hfirst hsole⟩, haside,
    hkeeps, start, hstart, hoff hkeeps⟩

/-- Two passes, of which the first one links to the second. -/
def couple : Plan (Except Fault) :=
  ((({ Plan.empty with root := some "a", settings := { rejectUnreachable := true } }).addPass
    { name := "a", next := some "b" }).2.addPass { name := "b" }).2

/-- The second draft gets the name of the first one. -/
def coupleMistaken : Plan (Except Fault) :=
  couple.edit "b" fun draft => { draft with name := "a" }

/-- The second draft gets a name of its own. -/
def coupleMissed : Plan (Except Fault) :=
  couple.edit "b" fun draft => { draft with name := "z" }

/-- The walk comes by both passes once and ends. Still the link is reported to lead back
when the second draft has the name of the first one, and the second pass is reported to be
off the walk when its draft has a name that is not declared. -/
theorem couple_misjudged :
    (coupleMistaken.Reachable ∧ coupleMistaken.root = some "a" ∧
      coupleMistaken.build = .error (.circularReference "b" "a") ∧
      ¬ ∃ name earlier later, earlier < later ∧
        coupleMistaken.station "a" earlier = some name ∧
        coupleMistaken.station "a" later = some name) ∧
    coupleMissed.Reachable ∧ coupleMissed.root = some "a" ∧
      coupleMissed.build = .error (.unreachablePass "b") ∧
      coupleMissed.station "a" 1 = some "b" := by
  have hcouple : couple.Reachable :=
    .addPass (.addPass (.configure (.setRoot .empty "a") { rejectUnreachable := true }) _) _
  have hdrafts : coupleMistaken.drafts =
      [("a", { name := "a", next := some "b" }), ("b", { name := "a" })] := rfl
  have hfollow : follow coupleMistaken.drafts [] emptyPassName (some "a") =
      .error (.circularReference "b" "a") := by
    simp [hdrafts, follow, link, Option.filter_some, Keyed.get?_cons, emptyPassName, nullPassName]
  have hmistaken : coupleMistaken.build = .error (.circularReference "b" "a") :=
    build_of_fault rfl ⟨by decide, by decide⟩ hfollow
  have hmissed : coupleMissed.build = .error (.unreachablePass "b") :=
    build_of_unreached rfl ⟨by decide, by decide⟩ (follow_couple rfl rfl) rfl rfl
  refine ⟨⟨hcouple.edit _ _, rfl, hmistaken, ?_⟩, hcouple.edit _ _, rfl, hmissed, rfl⟩
  rintro ⟨name, earlier, later, hlt, hearlier, hlater⟩
  have hend : coupleMistaken.station "a" 2 = none := rfl
  have hbefore : later < 2 := Nat.lt_of_not_le fun hle => by
    rw [station_eq_none_of_le hend hle] at hlater
    cases hlater
  -- The two positions before the end have different names.
  obtain rfl : earlier = 0 := by omega
  obtain rfl : later = 1 := by omega
  rw [← hearlier] at hlater
  exact absurd hlater (by decide)

end TreePass.Plan
