import TreePass.Chain.Basic
import TreePass.Settings

/-!
# Planning a chain

A plan collects drafts of passes, the name of the first one, and the settings.
Linking follows the drafts from the first one on, by the names in their links,
checks each link on the way and makes the chain. The walk ends because it never
goes on from a draft whose name it has met, and there are finitely many.
-/

namespace TreePass

/-- A pass as it is declared. -/
structure PassDraft (m : Type → Type) where
  name : String
  documentation : Option String := none
  steps : List (Step m) := []
  /-- The pass that is expected before it, if that is to be checked. -/
  previous : Option String := none
  next : Option String := none

/-- The declared passes of a chain in the making. -/
structure Plan (m : Type → Type) where
  /-- The drafts, each under the name that it was declared with. -/
  drafts : List (String × PassDraft m) := []
  root : Option String := none
  settings : Settings := {}

namespace Plan

variable {m : Type → Type}

/-- The plan without passes. -/
def empty : Plan m := {}

def draft? (plan : Plan m) (name : String) : Option (PassDraft m) :=
  Keyed.get? name plan.drafts

/-- Declares a pass, and answers what is wrong with it if it is refused. -/
def addPass (plan : Plan m) (draft : PassDraft m) : Option PassFault × Plan m :=
  if isReservedPassName draft.name then (some (.reservedPassName draft.name), plan)
  else if Keyed.contains draft.name plan.drafts then
    (some (.duplicatePass draft.name), plan)
  else (none, { plan with drafts := Keyed.put draft.name draft plan.drafts })

/-- Changes the draft declared under a name. The draft stays under that name
even if its own name changes. -/
def edit (plan : Plan m) (name : String) (f : PassDraft m → PassDraft m) : Plan m :=
  { plan with drafts := Keyed.update name f plan.drafts }

/-- The pass that a link names, where the name for no pass counts as none. -/
def link (name : Option String) : Option String :=
  name.filter fun name => name != nullPassName

/-- The number of drafts whose name is not in a list. -/
def unmet (drafts : List (String × PassDraft m)) (met : List String) : Nat :=
  (drafts.filter fun entry => !met.contains entry.2.name).length

/-- Meeting a draft for the first time leaves fewer that are not met. -/
theorem unmet_cons_lt {drafts : List (String × PassDraft m)} {met : List String}
    {key : String} {draft : PassDraft m} (hfound : Keyed.get? key drafts = some draft)
    (hnew : draft.name ∉ met) : unmet drafts (draft.name :: met) < unmet drafts met := by
  have hle (rest : List (String × PassDraft m)) :
      unmet rest (draft.name :: met) ≤ unmet rest met := by
    induction rest with
    | nil => exact Nat.le_refl _
    | cons entry rest ih =>
        simp only [unmet] at ih ⊢
        by_cases hmet : entry.2.name ∈ met
        · simpa [List.filter_cons, hmet] using ih
        · by_cases hname : entry.2.name = draft.name
          · simpa [List.filter_cons, hname, hnew] using Nat.le_succ_of_le ih
          · simpa [List.filter_cons, hmet, hname] using ih
  induction drafts with
  | nil => simp at hfound
  | cons entry rest ih =>
      obtain ⟨k, value⟩ := entry
      rw [Keyed.get?_cons] at hfound
      split at hfound
      · obtain rfl : value = draft := by simpa using hfound
        have := hle rest
        simp only [unmet] at this ⊢
        simpa [List.filter_cons, hnew] using Nat.lt_succ_of_le this
      · have hlt := ih hfound
        simp only [unmet] at hlt ⊢
        by_cases hmet : value.name ∈ met
        · simpa [List.filter_cons, hmet] using hlt
        · by_cases hname : value.name = draft.name
          · simpa [List.filter_cons, hname, hnew] using Nat.lt_succ_of_lt hlt
          · simpa [List.filter_cons, hmet, hname] using hlt

/-- Follows the links from the pass named in `current`, which comes after
`previous`, and answers the passes on the way together with the names that were
met, those in `met` included. -/
def follow (drafts : List (String × PassDraft m)) (met : List String) (previous : String)
    (current : Option String) : Except PassFault (List (Pass m) × List String) :=
  match current with
  | none => .ok ([], met)
  | some name =>
      match _hfound : Keyed.get? name drafts with
      | none => .error (.passNotFound name previous)
      | some draft =>
          if _hmet : draft.name ∈ met then .error (.circularReference name previous)
          else
            match (link draft.previous).filter fun declared => declared != previous with
            | some declared => .error (.inconsistentLineage name declared previous)
            | none => do
                let next := link draft.next
                let (passes, met) ← follow drafts (draft.name :: met) name next
                let pass : Pass m :=
                  { name, documentation := draft.documentation, steps := draft.steps,
                    previous := some previous, next }
                pure (pass :: passes, met)
termination_by unmet drafts met
decreasing_by exact unmet_cons_lt _hfound _hmet

/-- The first declared name that was not met. -/
def firstUnreached (drafts : List (String × PassDraft m)) (met : List String) : Option String :=
  (Keyed.keys drafts).find? fun name => !met.contains name

def build (plan : Plan m) : Except PassFault (Chain m) := do
  let root := plan.root.getD ""
  if root.isEmpty || isReservedPassName root then throw (.invalidRootName root)
  let (passes, met) ← follow plan.drafts [] emptyPassName (some root)
  if plan.settings.rejectUnreachable then
    if let some name := firstUnreached plan.drafts met then throw (.unreachablePass name)
  pure { passes := .sentinel root :: passes, rewriter := plan.settings.rewriter }

end Plan

end TreePass
