import TreePass.Json.Basic

/-!
# Writing JSON

Values are written without blanks. Inside a text only quotes, backslashes and
control characters below U+0020 are escaped, by a letter where there is one and
by four digits otherwise.
-/

namespace TreePass.Json

/-- The escape of a control character by its code point. -/
def controlEscape (c : Char) : String :=
  let digits := Nat.toDigits 16 c.toNat
  "\\u" ++ String.ofList (List.replicate (4 - digits.length) '0' ++ digits)

def printChar (c : Char) : String :=
  match c with
  | '"' => "\\\""
  | '\\' => "\\\\"
  | '\x08' => "\\b"
  | '\t' => "\\t"
  | '\n' => "\\n"
  | '\x0c' => "\\f"
  | '\r' => "\\r"
  | c => if c.toNat < 0x20 then controlEscape c else c.toString

def printText (text : String) : String :=
  "\"" ++ String.join (text.toList.map printChar) ++ "\""

mutual

/-- A value as it is written. A text without meaning is written as the
replacement character. -/
def print : Json → String
  | .null => "null"
  | .bool value => if value then "true" else "false"
  | .integer value => toString value
  | .decimal literal => literal
  | .text value => printText (value.getD "\ufffd")
  | .array items => "[" ++ String.intercalate "," (printItems items) ++ "]"
  | .object fields => "\x7b" ++ String.intercalate "," (printFields fields) ++ "\x7d"

def printItems : List Json → List String
  | [] => []
  | item :: rest => item.print :: printItems rest

def printFields : List (Option String × Json) → List String
  | [] => []
  | (name, value) :: rest =>
      (printText (name.getD "\ufffd") ++ ":" ++ value.print) :: printFields rest

end

end TreePass.Json
