/-!
# JSON values

A value keeps what the texts of this library are made of: texts, integers and
truth values in arrays and objects. An object keeps its fields as they come, so
that a reader can tell a repeated name. Two kinds of literal have no meaning
here but may stand where nobody looks: numbers that are not written as
integers, and texts whose escapes do not make up characters.
-/

namespace TreePass

/-- A JSON value. -/
inductive Json where
  | null
  | bool (value : Bool)
  | integer (value : Int)
  /-- A number with a fraction or an exponent, or minus zero, as it is written. -/
  | decimal (literal : String)
  /-- A text; `none` if it escapes half of a surrogate pair. -/
  | text (value : Option String)
  | array (items : List Json)
  /-- The fields in order, with names that are texts in the same sense. -/
  | object (fields : List (Option String × Json))

namespace Json

instance : Inhabited Json := ⟨null⟩

def ofText (value : String) : Json := .text (some value)

/-- A text, or null when there is none. -/
def ofOption : Option String → Json
  | none => .null
  | some value => ofText value

def ofTexts (values : List String) : Json :=
  .array (values.map ofText)

def ofNat (value : Nat) : Json := .integer value

def ofFields (fields : List (String × Json)) : Json :=
  .object (fields.map fun field => (some field.1, field.2))

/-- The object with fields added at its end; other values stay as they are. -/
def withFields (fields : List (String × Json)) : Json → Json
  | .object own => .object (own ++ fields.map fun field => (some field.1, field.2))
  | value => value

mutual

/-- The number of arrays and objects around the innermost value. -/
def depth : Json → Nat
  | .array items => depthItems items + 1
  | .object fields => depthFields fields + 1
  | _ => 0

def depthItems : List Json → Nat
  | [] => 0
  | item :: rest => max item.depth (depthItems rest)

def depthFields : List (Option String × Json) → Nat
  | [] => 0
  | (_, value) :: rest => max value.depth (depthFields rest)

end

end Json

end TreePass
