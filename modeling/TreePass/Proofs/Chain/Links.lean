import Mathlib.Data.List.Nodup
import Mathlib.Logic.Function.Iterate
import TreePass.Chain.Basic

/-!
# Chains that are linked both ways

The links of a chain are names, and passes are looked up by them. If no two passes have
one name and neighbours name each other, the links say the same as the order of the
passes: the pass of a name is the one at the position of the name, going on and going
back undo each other, and whoever goes on from the head comes by every pass in order.
-/

namespace TreePass.Chain

variable {m : Type → Type}

/-- No two passes have one name, each pass names the one after it and the one before it,
and nothing else. -/
structure Threaded (chain : Chain m) : Prop where
  names_nodup : (chain.passes.map Pass.name).Nodup
  next_eq : ∀ position pass, chain.passes[position]? = some pass →
    pass.next = (chain.passes[position + 1]?).map Pass.name
  previous_eq : ∀ position pass, chain.passes[position + 1]? = some pass →
    pass.previous = (chain.passes[position]?).map Pass.name
  first_previous : ∀ pass, chain.passes[0]? = some pass → pass.previous = none

/-- A threaded chain with one head, whose links are never the name for no pass; and what
asking for passes by names and links then comes to. -/
structure DoublyLinked (chain : Chain m) : Prop extends chain.Threaded where
  head : ∃ root, chain.passes[0]? = some (.sentinel root)
  isSentinel_iff : ∀ position pass, chain.passes[position]? = some pass →
    (pass.isSentinel = true ↔ position = 0)
  last_next : ∀ pass, chain.passes[chain.lastPosition]? = some pass → pass.next = none
  links_ne_null : ∀ pass ∈ chain.passes,
    pass.previous ≠ some nullPassName ∧ pass.next ≠ some nullPassName
  get?_name : ∀ position pass, chain.passes[position]? = some pass →
    chain.get? pass.name = some pass ∧ chain.position? pass.name = some position
  nextOf_iff_previousOf : ∀ pass ∈ chain.passes, ∀ following ∈ chain.passes,
    chain.nextOf pass = some following ↔ chain.previousOf following = some pass
  /-- Going on from the head comes by the passes one after the other, and then ends. -/
  visits : ∀ position, (fun pass => pass.bind chain.nextOf)^[position] chain.passes[0]? =
    chain.passes[position]?

namespace Threaded

variable {chain : Chain m}

/-- A name stands at one position only. -/
theorem position_eq (hthreaded : chain.Threaded) {position other : Nat} {pass pass' : Pass m}
    (hpass : chain.passes[position]? = some pass) (hpass' : chain.passes[other]? = some pass')
    (hname : pass.name = pass'.name) : position = other := by
  have hlt : position < (chain.passes.map Pass.name).length := by
    rw [List.length_map]
    exact (List.getElem?_eq_some_iff.mp hpass).1
  refine (List.getElem?_inj hlt hthreaded.names_nodup).mp ?_
  rw [List.getElem?_map, List.getElem?_map, hpass, hpass', Option.map_some, Option.map_some,
    hname]

theorem get?_name (hthreaded : chain.Threaded) {position : Nat} {pass : Pass m}
    (hpass : chain.passes[position]? = some pass) : chain.get? pass.name = some pass := by
  have hmem := List.mem_of_getElem? hpass
  cases hfound : chain.get? pass.name with
  | none => simpa using List.find?_eq_none.mp hfound pass hmem
  | some found =>
      have hname : found.name = pass.name := by simpa using List.find?_some hfound
      rw [List.inj_on_of_nodup_map hthreaded.names_nodup (List.mem_of_find?_eq_some hfound) hmem
        hname]

theorem position?_name (hthreaded : chain.Threaded) {position : Nat} {pass : Pass m}
    (hpass : chain.passes[position]? = some pass) :
    chain.position? pass.name = some position := by
  rw [position?, List.findIdx?_eq_some_iff_getElem]
  obtain ⟨hlt, hget⟩ := List.getElem?_eq_some_iff.mp hpass
  refine ⟨hlt, by simp [hget], fun earlier hearlier hname => ?_⟩
  have hother := List.getElem?_eq_getElem (Nat.lt_trans hearlier hlt)
  have heq := hthreaded.position_eq hother hpass (by simpa using hname)
  omega

/-- A pass is looked up by the name of the pass at a position exactly if it stands there. -/
theorem bind_get?_name (hthreaded : chain.Threaded) (position : Nat) :
    ((chain.passes[position]?).map Pass.name).bind chain.get? = chain.passes[position]? := by
  cases hpass : chain.passes[position]? with
  | none => rfl
  | some pass => exact hthreaded.get?_name hpass

theorem nextOf_eq (hthreaded : chain.Threaded) {position : Nat} {pass : Pass m}
    (hpass : chain.passes[position]? = some pass) :
    chain.nextOf pass = chain.passes[position + 1]? := by
  rw [nextOf, hthreaded.next_eq position pass hpass, hthreaded.bind_get?_name]

theorem previousOf_eq (hthreaded : chain.Threaded) {position : Nat} {pass : Pass m}
    (hpass : chain.passes[position + 1]? = some pass) :
    chain.previousOf pass = chain.passes[position]? := by
  rw [previousOf, hthreaded.previous_eq position pass hpass, hthreaded.bind_get?_name]

theorem previousOf_first (hthreaded : chain.Threaded) {pass : Pass m}
    (hpass : chain.passes[0]? = some pass) : chain.previousOf pass = none := by
  rw [previousOf, hthreaded.first_previous pass hpass, Option.bind_none]

theorem nextOf_iff_previousOf (hthreaded : chain.Threaded) {pass following : Pass m}
    (hpass : pass ∈ chain.passes) (hfollowing : following ∈ chain.passes) :
    chain.nextOf pass = some following ↔ chain.previousOf following = some pass := by
  obtain ⟨position, hposition⟩ := List.mem_iff_getElem?.mp hpass
  obtain ⟨other, hother⟩ := List.mem_iff_getElem?.mp hfollowing
  constructor
  · intro hnext
    rw [hthreaded.nextOf_eq hposition] at hnext
    rw [hthreaded.previousOf_eq hnext, hposition]
  · intro hprevious
    cases other with
    | zero =>
        rw [hthreaded.previousOf_first hother] at hprevious
        cases hprevious
    | succ other =>
        rw [hthreaded.previousOf_eq hother] at hprevious
        rw [hthreaded.nextOf_eq hprevious, hother]

theorem visits (hthreaded : chain.Threaded) (position : Nat) :
    (fun pass => pass.bind chain.nextOf)^[position] chain.passes[0]? =
      chain.passes[position]? := by
  induction position with
  | zero => rfl
  | succ position ih =>
      rw [Function.iterate_succ_apply', ih]
      cases hpass : chain.passes[position]? with
      | none =>
          have hend := List.getElem?_eq_none_iff.mp hpass
          exact (List.getElem?_eq_none (Nat.le_succ_of_le hend)).symm
      | some pass => exact hthreaded.nextOf_eq hpass

end Threaded

end TreePass.Chain
