import TreePass.Proofs.Chain.Links
import TreePass.Proofs.Plan.Naming

/-!
# The chain of a plan

A plan is built into the chain of the passes on its walk, behind the head. The walk
comes by no name twice, because the drafts that it meets bear different names, and the
head has a name that nothing can be declared under. So the chain is linked both ways,
whatever the links of the drafts off the walk and whatever placeholders there are.
-/

namespace TreePass

variable {m : Type → Type}

/-- The chain holds the passes of a walk behind its head. -/
structure Chain.Along (chain : Chain m) (plan : Plan m) (root : String) : Prop where
  head : chain.passes[0]? = some (.sentinel root)
  passes : ∀ position, chain.passes[position + 1]? = plan.linked? root position

namespace Plan

variable {plan : Plan m} {root : String}

theorem linked?_eq_some {position : Nat} {pass : Pass m}
    (hpass : plan.linked? root position = some pass) :
    plan.station root position = some pass.name ∧
      pass.previous = some (plan.predecessor root position) ∧
      pass.next = plan.station root (position + 1) := by
  obtain ⟨name, hname, hpass⟩ := Option.bind_eq_some_iff.mp hpass
  obtain ⟨draft, -, rfl⟩ := Option.map_eq_some_iff.mp hpass
  exact ⟨hname, rfl, rfl⟩

theorem exists_linked? (hnew : ∀ position, plan.NewAt root position) {position : Nat}
    {name : String} (hname : plan.station root position = some name) :
    ∃ pass, plan.linked? root position = some pass ∧ pass.name = name := by
  obtain ⟨draft, hdraft, -⟩ := hnew position name hname
  exact ⟨_, linked?_of_draft hname hdraft, rfl⟩

theorem station_mem_keys (hnew : ∀ position, plan.NewAt root position) {position : Nat}
    {name : String} (hname : plan.station root position = some name) :
    name ∈ Keyed.keys plan.drafts := by
  obtain ⟨draft, hdraft, -⟩ := hnew position name hname
  exact Keyed.mem_keys_of_mem (Keyed.mem_of_get? hdraft)

/-- A walk on which the drafts bear different names comes by no name twice. -/
theorem station_ne_of_lt (hnew : ∀ position, plan.NewAt root position) {earlier later : Nat}
    (hlt : earlier < later) {name : String} (hname : plan.station root later = some name) :
    plan.station root earlier ≠ some name := by
  intro hearlier
  obtain ⟨draft, hdraft, hborne⟩ := hnew later name hname
  exact hborne earlier hlt (borne?_of_draft hearlier hdraft)

end Plan

namespace Chain.Along

variable {chain : Chain m} {plan : Plan m} {root : String}

/-- The pass at a position is named as the walk names the predecessor of the position, and
links to the name that the walk meets there. -/
theorem name_next (halong : chain.Along plan root) {position : Nat} {pass : Pass m}
    (hpass : chain.passes[position]? = some pass) :
    pass.name = plan.predecessor root position ∧ pass.next = plan.station root position := by
  cases position with
  | zero =>
      rw [halong.head] at hpass
      cases hpass
      exact ⟨rfl, rfl⟩
  | succ position =>
      rw [halong.passes] at hpass
      obtain ⟨hname, -, hnext⟩ := Plan.linked?_eq_some hpass
      exact ⟨(Plan.predecessor_succ hname).symm, hnext⟩

theorem previous (halong : chain.Along plan root) {position : Nat} {pass : Pass m}
    (hpass : chain.passes[position + 1]? = some pass) :
    pass.previous = some (plan.predecessor root position) := by
  rw [halong.passes] at hpass
  exact (Plan.linked?_eq_some hpass).2.1

/-- Behind the head, every pass has the name of a declared one. -/
theorem name_mem_keys (halong : chain.Along plan root)
    (hnew : ∀ position, plan.NewAt root position) {position : Nat} {pass : Pass m}
    (hpass : chain.passes[position + 1]? = some pass) :
    pass.name ∈ Keyed.keys plan.drafts := by
  rw [halong.passes] at hpass
  exact Plan.station_mem_keys hnew (Plan.linked?_eq_some hpass).1

theorem names_nodup (halong : chain.Along plan root)
    (hnew : ∀ position, plan.NewAt root position)
    (hkeys : ∀ key ∈ Keyed.keys plan.drafts, isReservedPassName key = false) :
    (chain.passes.map Pass.name).Nodup := by
  rw [List.nodup_iff_getElem?_ne_getElem?]
  intro earlier later hlt hlength heq
  rw [List.length_map] at hlength
  have hlater := List.getElem?_eq_getElem hlength
  have hearlier := List.getElem?_eq_getElem (Nat.lt_trans hlt hlength)
  rw [List.getElem?_map, List.getElem?_map, hearlier, hlater] at heq
  replace heq := Option.some.inj heq
  obtain ⟨later, rfl⟩ := Nat.exists_eq_succ_of_ne_zero (Nat.ne_zero_of_lt hlt)
  cases earlier with
  | zero =>
      -- The name of the head is reserved, and nothing is declared under it.
      have hname := hkeys _ (halong.name_mem_keys hnew hlater)
      rw [← heq, (halong.name_next hearlier).1] at hname
      cases hname
  | succ earlier =>
      rw [halong.passes] at hearlier hlater
      have hstation := (Plan.linked?_eq_some hearlier).1
      rw [heq] at hstation
      exact Plan.station_ne_of_lt hnew (Nat.lt_of_succ_lt_succ hlt)
        (Plan.linked?_eq_some hlater).1 hstation

theorem threaded (halong : chain.Along plan root)
    (hnew : ∀ position, plan.NewAt root position)
    (hkeys : ∀ key ∈ Keyed.keys plan.drafts, isReservedPassName key = false) :
    chain.Threaded where
  names_nodup := halong.names_nodup hnew hkeys
  next_eq position pass hpass := by
    rw [(halong.name_next hpass).2, halong.passes]
    cases hname : plan.station root position with
    | none =>
        rw [Plan.linked?_of_off hname]
        rfl
    | some name =>
        obtain ⟨following, hfollowing, hname⟩ := Plan.exists_linked? hnew hname
        rw [hfollowing, Option.map_some, hname]
  previous_eq position pass hpass := by
    obtain ⟨hlt, -⟩ := List.getElem?_eq_some_iff.mp hpass
    have hbefore := List.getElem?_eq_getElem (Nat.lt_of_succ_lt hlt)
    rw [halong.previous hpass, hbefore, Option.map_some, (halong.name_next hbefore).1]
  first_previous pass hpass := by
    rw [halong.head] at hpass
    cases hpass
    rfl

theorem isSentinel_iff (halong : chain.Along plan root)
    (hnew : ∀ position, plan.NewAt root position)
    (hkeys : ∀ key ∈ Keyed.keys plan.drafts, isReservedPassName key = false)
    {position : Nat} {pass : Pass m} (hpass : chain.passes[position]? = some pass) :
    pass.isSentinel = true ↔ position = 0 := by
  cases position with
  | zero =>
      rw [halong.head] at hpass
      cases hpass
      exact iff_of_true rfl rfl
  | succ position =>
      have hname := hkeys _ (halong.name_mem_keys hnew hpass)
      rw [isReservedPassName, Bool.or_eq_false_iff] at hname
      rw [Pass.isSentinel, hname.1]
      simp

/-- The name of no pass is the name for no pass. -/
theorem name_ne_null (halong : chain.Along plan root)
    (hnew : ∀ position, plan.NewAt root position)
    (hkeys : ∀ key ∈ Keyed.keys plan.drafts, isReservedPassName key = false)
    {position : Nat} {pass : Pass m} (hpass : chain.passes[position]? = some pass) :
    pass.name ≠ nullPassName := by
  cases position with
  | zero =>
      rw [halong.head] at hpass
      cases hpass
      show emptyPassName ≠ nullPassName
      decide
  | succ position =>
      have hname := hkeys _ (halong.name_mem_keys hnew hpass)
      rw [isReservedPassName, Bool.or_eq_false_iff] at hname
      simpa using hname.2

theorem doublyLinked (halong : chain.Along plan root)
    (hnew : ∀ position, plan.NewAt root position)
    (hkeys : ∀ key ∈ Keyed.keys plan.drafts, isReservedPassName key = false) :
    chain.DoublyLinked := by
  have hthreaded := halong.threaded hnew hkeys
  have hnull (position : Nat) :
      (chain.passes[position]?).map Pass.name ≠ some nullPassName := by
    intro hname
    obtain ⟨pass, hpass, hname⟩ := Option.map_eq_some_iff.mp hname
    exact halong.name_ne_null hnew hkeys hpass hname
  refine
    { hthreaded with
      head := ⟨root, halong.head⟩
      isSentinel_iff := fun position pass hpass => halong.isSentinel_iff hnew hkeys hpass
      last_next := fun pass hpass => ?_
      links_ne_null := fun pass hpass => ?_
      get?_name := fun position pass hpass =>
        ⟨hthreaded.get?_name hpass, hthreaded.position?_name hpass⟩
      nextOf_iff_previousOf := fun pass hpass following hfollowing =>
        hthreaded.nextOf_iff_previousOf hpass hfollowing
      visits := hthreaded.visits }
  · rw [hthreaded.next_eq _ pass hpass, List.getElem?_eq_none (by rw [lastPosition]; omega)]
    rfl
  · obtain ⟨position, hposition⟩ := List.mem_iff_getElem?.mp hpass
    refine ⟨?_, hthreaded.next_eq position pass hposition ▸ hnull (position + 1)⟩
    cases position with
    | zero =>
        rw [hthreaded.first_previous pass hposition]
        exact fun hnone => nomatch hnone
    | succ position => exact hthreaded.previous_eq position pass hposition ▸ hnull position

end Chain.Along

namespace Plan

variable {plan : Plan m}

/-- A plan that is built is the chain of a walk on which the drafts bear different names;
if nothing may be left out, every declared name is borne by a draft on the walk. -/
theorem along_of_build {chain : Chain m} (hbuild : plan.build = .ok chain) :
    ∃ root, chain.Along plan root ∧ (∀ position, plan.NewAt root position) ∧
      (plan.settings.rejectUnreachable = true → ∀ name ∈ Keyed.keys plan.drafts,
        ∃ position, plan.borne? root position = some name) := by
  have hconcluded := plan.build_concluded
  rw [hbuild] at hconcluded
  cases hconcluded with
  | @linked root passes met _ _ hfollow hreach =>
      have htraced := plan.traced_root root
      rw [hfollow] at htraced
      cases htraced with
      | passes _ hnew hmet hpasses =>
          refine ⟨root, ⟨rfl, fun position => ?_⟩, hnew, fun hreject name hname => ?_⟩
          · rw [List.getElem?_cons_succ, hpasses, Nat.zero_add]
          · have hmem := List.find?_eq_none.mp (hreach hreject) name hname
            exact (hmet name).mp (by simpa using hmem)

/-- Whatever is declared and changed, a plan that is built is a chain that is linked both
ways. If the drafts keep their names and nothing may be left out, every declared pass is
in it. -/
theorem Reachable.built_doublyLinked (hreach : plan.Reachable) {chain : Chain m}
    (hbuild : plan.build = .ok chain) :
    chain.DoublyLinked ∧ (plan.NamesKept → plan.settings.rejectUnreachable = true →
      ∀ name ∈ Keyed.keys plan.drafts, ∃ pass ∈ chain.passes, pass.name = name) := by
  obtain ⟨root, halong, hnew, hall⟩ := along_of_build hbuild
  refine ⟨halong.doublyLinked hnew hreach.key_unreserved, fun hnames hreject name hname => ?_⟩
  obtain ⟨position, hborne⟩ := hall hreject name hname
  obtain ⟨other, draft, hother, hdraft, rfl⟩ := borne?_eq_some_iff.mp hborne
  obtain ⟨pass, hpass, rfl⟩ := exists_linked? hnew hother
  refine ⟨pass, List.mem_of_getElem? ((halong.passes position).trans hpass), ?_⟩
  exact (hnames.draft_name hdraft).symm

/-- Two passes, the second of which is declared first. The first one expects the head
before it, and the second one links to the name for no pass. -/
def coupleReversed : Plan (Except Fault) :=
  ((({ Plan.empty with root := some "a", settings := { rejectUnreachable := true } }).addPass
    { name := "b", next := some nullPassName }).2.addPass
    { name := "a", previous := some emptyPassName, next := some "b" }).2

theorem Reachable.built_doublyLinked_reversed :
    coupleReversed.Reachable ∧ coupleReversed.NamesKept ∧
      ∃ chain, coupleReversed.build = .ok chain ∧ chain.DoublyLinked ∧
        ∀ name ∈ Keyed.keys coupleReversed.drafts, ∃ pass ∈ chain.passes, pass.name = name := by
  have hreach : coupleReversed.Reachable :=
    .addPass (.addPass (.configure (.setRoot .empty "a") { rejectUnreachable := true }) _) _
  have hnames : coupleReversed.NamesKept :=
    .addPass (.addPass (namesKept_of_drafts_eq_nil rfl) _) _
  have hdrafts : coupleReversed.drafts = [("b", { name := "b", next := some nullPassName }),
      ("a", { name := "a", previous := some emptyPassName, next := some "b" })] := rfl
  have hfollow : follow coupleReversed.drafts [] emptyPassName (some "a") = .ok
      ([{ name := "a", previous := some "$empty", next := some "b" },
        { name := "b", previous := some "a" }], ["b", "a"]) := by
    simp [hdrafts, follow, link, Option.filter_some, Keyed.get?_cons, emptyPassName, nullPassName]
  have hbuild := build_of_linked rfl ⟨by decide, by decide⟩ hfollow fun _ => rfl
  obtain ⟨hlinked, hall⟩ := hreach.built_doublyLinked hbuild
  exact ⟨hreach, hnames, _, hbuild, hlinked, hall hnames rfl⟩

end Plan

end TreePass
