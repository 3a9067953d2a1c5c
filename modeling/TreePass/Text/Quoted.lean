import TreePass.Text.Printable

/-!
# Quoted text

A quoted text stands between double quotes. Quotes and backslashes inside it
are escaped by a backslash, the usual blanks by their letter, and every other
character that is not printable by its code point in braces.
-/

namespace TreePass.Text

/-- The escape of a character by its code point, in lower case and without
leading zeros. -/
def codeEscape (c : Char) : String :=
  "\\u\x7b" ++ String.ofList (Nat.toDigits 16 c.toNat) ++ "\x7d"

def quotedChar (c : Char) : String :=
  match c with
  | '"' => "\\\""
  | '\\' => "\\\\"
  | '\n' => "\\n"
  | '\r' => "\\r"
  | '\t' => "\\t"
  | '\x00' => "\\0"
  | c => if isPrintable c then c.toString else codeEscape c

def quoted (text : String) : String :=
  "\"" ++ String.join (text.toList.map quotedChar) ++ "\""

def quotedList (texts : List String) : String :=
  "[" ++ String.intercalate ", " (texts.map quoted) ++ "]"

end TreePass.Text
