import Mathlib.Data.Multiset.Defs
import TreePass.Proofs.Node.Maps

/-!
# Alike nodes

Two nodes are alike when the same keys lead to nodes of the same own data, with the
members in no order. That is what equality of nodes decides where no map holds a key
twice.
-/

namespace TreePass

/-- The own data of a node. -/
structure Face where
  name : String
  documentation : Option String
  attributes : AttributeSet
  /-- The members by key, in no order. -/
  members : Multiset (String × Member)

namespace Node

def face (node : Node) : Face where
  name := node.name
  documentation := node.documentation
  attributes := node.attributes
  members := node.members

/-- Related options stay related where a relation of their values implies another. -/
theorem rel_of_mem {α β : Type} {R S : α → β → Prop} {found : Option α} {found' : Option β}
    (hrel : Option.Rel R found found')
    (himp : ∀ value ∈ found, ∀ value' ∈ found', R value value' → S value value') :
    Option.Rel S found found' := by
  cases hrel with
  | none => exact .none
  | some hvalue => exact .some (himp _ rfl _ rfl hvalue)

theorem rel_refl {α : Type} {R : α → α → Prop} (hrefl : ∀ value, R value value)
    (found : Option α) : Option.Rel R found found := by
  cases found with
  | none => exact .none
  | some value => exact .some (hrefl value)

theorem isSome_eq_of_rel {α β : Type} {R : α → β → Prop} {found : Option α} {found' : Option β}
    (hrel : Option.Rel R found found') : found.isSome = found'.isSome := by
  cases hrel <;> rfl

theorem face_eq_iff {node other : Node} :
    node.face = other.face ↔ node.name = other.name ∧ node.documentation = other.documentation ∧
      node.attributes = other.attributes ∧ node.members.Perm other.members := by
  simp only [face, Face.mk.injEq, Multiset.coe_eq_coe]

theorem face_reroot (path : Path) (node : Node) : (node.reroot path).face = node.face := by
  cases node
  rw [reroot]
  rfl

/-! ## Looking at nodes through keys -/

section Looks

variable {β : Type} {f : Node → β} {node other third : Node}

/-- The same keys lead to nodes at which `f` sees the same. -/
def Looks (f : Node → β) (node other : Node) : Prop :=
  ∀ keys, (node.descend keys).map f = (other.descend keys).map f

namespace Looks

theorem refl (node : Node) : node.Looks f node := fun _ => rfl

theorem symm (hlooks : node.Looks f other) : other.Looks f node := fun keys => (hlooks keys).symm

theorem trans (hlooks : node.Looks f other) (hother : other.Looks f third) :
    node.Looks f third := fun keys => (hlooks keys).trans (hother keys)

theorem top (hlooks : node.Looks f other) : f node = f other :=
  Option.some.inj (hlooks [])

theorem child (hlooks : node.Looks f other) (key : String) :
    Option.Rel (Looks f) (node.child? key) (other.child? key) := by
  have hkeys (keys : List String) := hlooks (key :: keys)
  simp only [descend] at hkeys
  cases hchild : node.child? key with
  | none =>
      cases hother : other.child? key with
      | none => exact .none
      | some found =>
          have hnil := hkeys []
          rw [hchild, hother] at hnil
          cases hnil
  | some child =>
      rw [hchild] at hkeys
      cases hother : other.child? key with
      | none =>
          have hnil := hkeys []
          rw [hother] at hnil
          cases hnil
      | some found =>
          rw [hother] at hkeys
          exact .some hkeys

theorem of_children (htop : f node = f other)
    (hchild : ∀ key, Option.Rel (Looks f) (node.child? key) (other.child? key)) :
    node.Looks f other := by
  intro keys
  cases keys with
  | nil => exact congrArg some htop
  | cons key keys =>
      have hkey := hchild key
      rw [descend, descend]
      generalize node.child? key = found, other.child? key = found' at hkey
      cases hkey with
      | none => rfl
      | some hfound => exact hfound keys

theorem of_child?_eq (htop : f node = f other)
    (hchild : ∀ key, node.child? key = other.child? key) : node.Looks f other :=
  .of_children htop fun key => hchild key ▸ rel_refl .refl (node.child? key)

/-- What is seen less of is the same all the more. -/
theorem weaken {γ : Type} {g : β → γ} (hlooks : node.Looks f other) :
    node.Looks (fun inner => g (f inner)) other := by
  intro keys
  have hkeys := congrArg (Option.map g) (hlooks keys)
  rwa [Option.map_map, Option.map_map] at hkeys

end Looks

end Looks

/-! ## Alike nodes -/

/-- The same keys lead to nodes of one face. -/
def Alike : Node → Node → Prop := Looks face

theorem Alike.name_eq {node other : Node} (halike : node.Alike other) : node.name = other.name :=
  congrArg Face.name halike.top

theorem sameChildren_iff {children others : List (String × Node)} :
    sameChildren children others = true ↔ ∀ entry ∈ children,
      ∃ other, Keyed.get? entry.1 others = some other ∧ entry.2.same other = true := by
  induction children with
  | nil => simp [sameChildren]
  | cons entry rest ih =>
      obtain ⟨key, child⟩ := entry
      rw [sameChildren, Bool.and_eq_true, List.forall_mem_cons, ih]
      refine and_congr_left fun _ => ?_
      cases hfound : Keyed.get? key others with
      | none => simp
      | some other => simp

theorem same_iff {node other : Node} : node.same other = true ↔
    node.name = other.name ∧ node.documentation = other.documentation ∧
      node.attributes = other.attributes ∧
      Keyed.agree (· == ·) node.members other.members = true ∧
      node.children.length = other.children.length ∧
      sameChildren node.children other.children = true := by
  cases node
  cases other
  simp [same, and_assoc]

/-- Whether there is a child under a key shows in what is seen through keys. -/
theorem Looks.mem_keys_iff {β : Type} {f : Node → β} {node other : Node}
    (hlooks : node.Looks f other) (key : String) :
    key ∈ Keyed.keys node.children ↔ key ∈ Keyed.keys other.children := by
  rw [← Keyed.contains_iff_mem_keys, ← Keyed.contains_iff_mem_keys]
  exact Bool.eq_iff_iff.mp (isSome_eq_of_rel (hlooks.child key))

theorem alike_of_same {node other : Node} (hnode : node.Distinct) (hother : other.Distinct)
    (hsame : node.same other = true) : node.Alike other := by
  intro keys
  induction keys generalizing node other with
  | nil =>
      obtain ⟨hname, hdocumentation, hattributes, hmembers, -⟩ := same_iff.mp hsame
      have hperm := (Keyed.agree_iff_perm hnode.members hother.members).mp hmembers
      simp only [descend, Option.map_some, face, hname, hdocumentation, hattributes,
        Multiset.coe_eq_coe.mpr hperm]
  | cons key keys ih =>
      obtain ⟨-, -, -, -, hlength, hchildren⟩ := same_iff.mp hsame
      rw [sameChildren_iff] at hchildren
      rw [descend, descend, child?, child?]
      cases hfound : Keyed.get? key node.children with
      | some child =>
          have hmem := Keyed.mem_of_get? hfound
          obtain ⟨child', hfound', hchild⟩ := hchildren _ hmem
          rw [hfound']
          exact ih (hnode.child hmem) (hother.child (Keyed.mem_of_get? hfound')) hchild
      | none =>
          -- As many keys, all of them found in the other map, are all of its keys.
          have hsubset : Keyed.keys node.children ⊆ Keyed.keys other.children := by
            intro key hkey
            obtain ⟨entry, hentry, rfl⟩ := List.mem_map.mp hkey
            obtain ⟨child', hfound', -⟩ := hchildren entry hentry
            exact Keyed.mem_keys_of_mem (Keyed.mem_of_get? hfound')
          have hperm := (List.subperm_of_subset hnode.children hsubset).perm_of_length_le
            (by simpa [Keyed.keys] using Nat.le_of_eq hlength.symm)
          have hfound' : Keyed.get? key other.children = none := by
            rw [Keyed.get?_eq_none_iff, ← hperm.mem_iff]
            exact Keyed.get?_eq_none_iff.mp hfound
          rw [hfound']

theorem same_of_alike {node other : Node} (hnode : node.Distinct) (hother : other.Distinct)
    (halike : node.Alike other) : node.same other = true := by
  induction node using Node.induction generalizing other with
  | step node ih =>
      obtain ⟨hname, hdocumentation, hattributes, hmembers⟩ := face_eq_iff.mp halike.top
      have hkeys : (Keyed.keys node.children).Perm (Keyed.keys other.children) :=
        (List.perm_ext_iff_of_nodup hnode.children hother.children).mpr halike.mem_keys_iff
      refine same_iff.mpr ⟨hname, hdocumentation, hattributes,
        (Keyed.agree_iff_perm hnode.members hother.members).mpr hmembers,
        by simpa [Keyed.keys] using hkeys.length_eq, sameChildren_iff.mpr fun entry hentry => ?_⟩
      have hchild := halike.child entry.1
      rw [child?, child?, Keyed.get?_eq_some_of_mem hnode.children hentry] at hchild
      cases hfound : Keyed.get? entry.1 other.children with
      | none =>
          rw [hfound] at hchild
          cases hchild
      | some found =>
          rw [hfound] at hchild
          cases hchild with
          | some hchild =>
              exact ⟨found, rfl, ih entry hentry (hnode.child hentry)
                (hother.child (Keyed.mem_of_get? hfound)) hchild⟩

/-- Equality of nodes is likeness where no map holds a key twice. -/
theorem same_iff_alike {node other : Node} (hnode : node.Distinct) (hother : other.Distinct) :
    node.same other = true ↔ node.Alike other :=
  ⟨alike_of_same hnode hother, same_of_alike hnode hother⟩

end Node

end TreePass
