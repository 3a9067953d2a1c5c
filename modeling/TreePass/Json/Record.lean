import TreePass.Json.Basic

/-!
# Records in JSON

A record is written as an object with its fields by name, or as an array with
its fields in order. In an object, unknown names are passed over and a known
name may not be repeated; an array may break off early. What becomes of a field
that is not there differs between the two, so that reading a record answers for
each field which of the cases it is.
-/

namespace TreePass.Json

/-- What a record says about one of its fields. -/
inductive Slot where
  | absent
  /-- The array ends before the field. -/
  | cutOff
  | given (value : Json)

/-- The entries of an object all of whose names are texts. -/
def entries? : Json → Option (List (String × Json))
  | .object fields => fields.mapM fun (name, value) => name.map fun name => (name, value)
  | _ => none

/-- What an object says about the field of a name. -/
def fieldSlot (entries : List (String × Json)) (name : String) : Option Slot :=
  match entries.filter fun entry => entry.1 == name with
  | [] => some .absent
  | [entry] => some (.given entry.2)
  | _ :: _ :: _ => none

/-- The fields of a record of the given names, in the order of the names. -/
def record? (names : List String) : Json → Option (List Slot)
  | .array items =>
      if items.length ≤ names.length then
        some (items.map .given ++ List.replicate (names.length - items.length) .cutOff)
      else none
  | .object fields => do
      let entries ← (Json.object fields).entries?
      names.mapM (fieldSlot entries)
  | _ => none

namespace Slot

variable {α : Type}

def required (read : Json → Option α) : Slot → Option α
  | .given value => read value
  | _ => none

def orDefault (default : α) (read : Json → Option α) : Slot → Option α
  | .given value => read value
  | _ => some default

/-- A field that may be missing from an object, but not from an array. -/
def orAbsent (default : α) (read : Json → Option α) : Slot → Option α
  | .given value => read value
  | .absent => some default
  | .cutOff => none

end Slot

def text? : Json → Option String
  | .text value => value
  | _ => none

def nullableText? : Json → Option (Option String)
  | .null => some none
  | value => value.text?.map some

def bool? : Json → Option Bool
  | .bool value => some value
  | _ => none

def int64? : Json → Option Int64
  | .integer value =>
      if Int64.minValue.toInt ≤ value ∧ value ≤ Int64.maxValue.toInt then
        some (Int64.ofInt value)
      else none
  | _ => none

end TreePass.Json
