import TreePass.Keyed
import TreePass.Text.Quoted

/-!
# Attributes

An attribute is an opaque tag on a node or a member: a bare flag, a keyed text,
integer or truth value, or a named record of further attributes. Attributes are
totally ordered, first by their form and then by their contents in the order in
which they are written down here; texts compare by code points. The fields of a
record are a map by name, kept in ascending order of the names.
-/

namespace TreePass

/-- A tag on a node or a member. -/
inductive Attribute where
  | flag (name : String)
  /-- A text under a key. -/
  | text (key value : String)
  /-- An integer of 64 bits under a key. -/
  | int (key : String) (value : Int64)
  /-- A truth value under a key. -/
  | bool (key : String) (value : Bool)
  /-- A named record, its fields in ascending order of their names. -/
  | structured (kind : String) (fields : List (String × Attribute))

namespace Attribute

instance : Inhabited Attribute := ⟨.flag ""⟩

/-- The record of a kind with the given fields; of fields of one name the last
counts. -/
def record (kind : String) (fields : List (String × Attribute)) : Attribute :=
  .structured kind (Keyed.sorted fields)

def key : Attribute → String
  | .flag name => name
  | .text key _ => key
  | .int key _ => key
  | .bool key _ => key
  | .structured kind _ => kind

/-- The place of the form of an attribute among the forms. -/
def rank : Attribute → Nat
  | .flag .. => 0
  | .text .. => 1
  | .int .. => 2
  | .bool .. => 3
  | .structured .. => 4

mutual

/-- The order of attributes: by form, then by contents. -/
def compare : Attribute → Attribute → Ordering
  | .flag name, .flag name' => Ord.compare name name'
  | .text key value, .text key' value' =>
      (Ord.compare key key').then (Ord.compare value value')
  | .int key value, .int key' value' =>
      (Ord.compare key key').then (Ord.compare value value')
  | .bool key value, .bool key' value' =>
      (Ord.compare key key').then (Ord.compare value value')
  | .structured kind fields, .structured kind' fields' =>
      (Ord.compare kind kind').then (compareFields fields fields')
  | a, b => Ord.compare a.rank b.rank

/-- The lexicographic order of fields, each by its name and then its value. -/
def compareFields : List (String × Attribute) → List (String × Attribute) → Ordering
  | [], [] => .eq
  | [], _ :: _ => .lt
  | _ :: _, [] => .gt
  | (name, value) :: rest, (name', value') :: rest' =>
      ((Ord.compare name name').then (compare value value')).then (compareFields rest rest')

end

instance : Ord Attribute := ⟨compare⟩

mutual

/-- Whether two attributes are the same, form and contents. -/
def decideEq : (a b : Attribute) → Decidable (a = b)
  | .flag name, .flag name' =>
      if h : name = name' then isTrue (by rw [h]) else isFalse (by simpa using h)
  | .text key value, .text key' value' =>
      if h : key = key' ∧ value = value' then isTrue (by rw [h.1, h.2])
      else isFalse (by simpa using h)
  | .int key value, .int key' value' =>
      if h : key = key' ∧ value = value' then isTrue (by rw [h.1, h.2])
      else isFalse (by simpa using h)
  | .bool key value, .bool key' value' =>
      if h : key = key' ∧ value = value' then isTrue (by rw [h.1, h.2])
      else isFalse (by simpa using h)
  | .structured kind fields, .structured kind' fields' =>
      match decideEqFields fields fields' with
      | isTrue hfields =>
          if h : kind = kind' then isTrue (by rw [h, hfields]) else isFalse (by simp [h])
      | isFalse hfields => isFalse (by simp [hfields])
  | .flag .., .text .. | .flag .., .int .. | .flag .., .bool .. | .flag .., .structured .. =>
      isFalse nofun
  | .text .., .flag .. | .text .., .int .. | .text .., .bool .. | .text .., .structured .. =>
      isFalse nofun
  | .int .., .flag .. | .int .., .text .. | .int .., .bool .. | .int .., .structured .. =>
      isFalse nofun
  | .bool .., .flag .. | .bool .., .text .. | .bool .., .int .. | .bool .., .structured .. =>
      isFalse nofun
  | .structured .., .flag .. | .structured .., .text .. | .structured .., .int ..
  | .structured .., .bool .. =>
      isFalse nofun

def decideEqFields : (a b : List (String × Attribute)) → Decidable (a = b)
  | [], [] => isTrue rfl
  | [], _ :: _ => isFalse nofun
  | _ :: _, [] => isFalse nofun
  | (name, value) :: rest, (name', value') :: rest' =>
      match decideEq value value', decideEqFields rest rest' with
      | isTrue hvalue, isTrue hrest =>
          if h : name = name' then isTrue (by rw [h, hvalue, hrest])
          else isFalse (by simp [h])
      | isFalse hvalue, _ => isFalse (by simp [hvalue])
      | _, isFalse hrest => isFalse (by simp [hrest])

end

instance : DecidableEq Attribute := decideEq

mutual

def display : Attribute → String
  | .flag name => name
  | .text key value => key ++ " = " ++ Text.quoted value
  | .int key value => key ++ " = " ++ toString value.toInt
  | .bool key value => key ++ " = " ++ (if value then "true" else "false")
  | .structured kind fields =>
      kind ++ "(" ++ String.intercalate ", " (displayFields fields) ++ ")"

/-- The fields of a record as they are shown, each after its name. -/
def displayFields : List (String × Attribute) → List String
  | [] => []
  | (name, value) :: rest => (name ++ ": " ++ value.display) :: displayFields rest

end

end Attribute

end TreePass
