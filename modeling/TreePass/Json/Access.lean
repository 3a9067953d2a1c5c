import TreePass.Json.Record

/-!
# Fields of JSON objects

Access to the fields of an object by name, where each field is of one kind.
Optional fields may be left out, and optional texts may also be null. The
answer is `none` when the value is not of the kind that is asked for.
-/

namespace TreePass.Json

/-- The value of the last field of a name. -/
def field? (name : String) : Json → Option Json
  | .object fields => ((fields.filter fun field => field.1 == some name).getLast?).map Prod.snd
  | _ => none

def single? : Json → Option (String × Json)
  | .object [(some name, value)] => some (name, value)
  | _ => none

def items? : Json → Option (List Json)
  | .array items => some items
  | _ => none

def nat? : Json → Option Nat
  | .integer value => value.toNat?
  | _ => none

def textField? (name : String) (json : Json) : Option String :=
  (json.field? name).bind text?

def optionalText? (name : String) (json : Json) : Option (Option String) :=
  match json.field? name with
  | none => some none
  | some value => value.nullableText?

/-- An optional array under a name; it is empty when it is left out. -/
def itemsField? (name : String) (json : Json) : Option (List Json) :=
  match json.field? name with
  | none => some []
  | some value => value.items?

/-- An optional truth value under a name; it is false when it is left out. -/
def boolField? (name : String) (json : Json) : Option Bool :=
  match json.field? name with
  | none => some false
  | some value => value.bool?

end TreePass.Json
