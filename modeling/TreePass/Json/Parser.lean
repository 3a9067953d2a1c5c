import TreePass.Json.Basic

/-!
# Reading JSON

A text is read strictly: one value, with blanks around it and between its
tokens, and nothing else. Each scanner answers what it read and the characters
that are left. Texts are read in two steps, first into characters and escaped
code units, and then into characters alone; the second step may fail without
the text being malformed.
-/

namespace TreePass.Json

def isBlank (c : Char) : Bool :=
  c == ' ' || c == '\n' || c == '\t' || c == '\r'

/-- The characters from the first one that is not blank. -/
def skipBlank (input : List Char) : List Char :=
  input.dropWhile isBlank

/-- A piece of a text: a character, or a code unit of 16 bits that was escaped. -/
inductive Piece where
  | char (c : Char)
  | unit (code : Nat)

def hexValue (c : Char) : Option Nat :=
  if '0' ≤ c ∧ c ≤ '9' then some (c.toNat - '0'.toNat)
  else if 'a' ≤ c ∧ c ≤ 'f' then some (c.toNat - 'a'.toNat + 10)
  else if 'A' ≤ c ∧ c ≤ 'F' then some (c.toNat - 'A'.toNat + 10)
  else none

def codeUnit (a b c d : Char) : Option Nat := do
  return (((← hexValue a) * 16 + (← hexValue b)) * 16 + (← hexValue c)) * 16 + (← hexValue d)

/-- The character that a letter stands for after a backslash. -/
def escapedChar : Char → Option Char
  | '"' => some '"'
  | '\\' => some '\\'
  | '/' => some '/'
  | 'b' => some '\x08'
  | 'f' => some '\x0c'
  | 'n' => some '\n'
  | 'r' => some '\r'
  | 't' => some '\t'
  | _ => none

def scanText : List Char → Option (List Piece × List Char)
  | [] => none
  | '"' :: rest => some ([], rest)
  | '\\' :: 'u' :: a :: b :: c :: d :: rest => do
      let code ← codeUnit a b c d
      let (pieces, rest) ← scanText rest
      return (.unit code :: pieces, rest)
  | '\\' :: letter :: rest => do
      let c ← escapedChar letter
      let (pieces, rest) ← scanText rest
      return (.char c :: pieces, rest)
  | c :: rest => do
      if c == '\\' || c.toNat < 0x20 then none
      let (pieces, rest) ← scanText rest
      return (.char c :: pieces, rest)

/-- Whether a code unit is the first half of a surrogate pair. -/
def isHighHalf (code : Nat) : Bool := 0xD800 ≤ code && code < 0xDC00

/-- Whether a code unit is the second half of a surrogate pair. -/
def isLowHalf (code : Nat) : Bool := 0xDC00 ≤ code && code < 0xE000

/-- The characters that pieces make up; a half of a surrogate pair on its own
makes up none. -/
def assemble : List Piece → Option (List Char)
  | [] => some []
  | .char c :: rest => (assemble rest).map (c :: ·)
  | .unit high :: .unit low :: rest =>
      if isHighHalf high then
        if isLowHalf low then
          (assemble rest).map
            (Char.ofNat (0x10000 + (high - 0xD800) * 0x400 + (low - 0xDC00)) :: ·)
        else none
      else if isLowHalf high then none
      else (assemble (.unit low :: rest)).map (Char.ofNat high :: ·)
  | .unit code :: rest =>
      if isHighHalf code || isLowHalf code then none
      else (assemble rest).map (Char.ofNat code :: ·)

def textOf (pieces : List Piece) : Option String :=
  (assemble pieces).map String.ofList

def digitsValue (digits : List Char) : Nat :=
  digits.foldl (fun value c => value * 10 + (c.toNat - '0'.toNat)) 0

/-- Reads the digits that have to follow, one at least. -/
def scanDigits (input : List Char) : Option (List Char × List Char) :=
  match input.takeWhile Char.isDigit with
  | [] => none
  | digits => some (digits, input.dropWhile Char.isDigit)

/-- Reads a fraction, if there is one. -/
def scanFraction : List Char → Option (List Char × List Char)
  | '.' :: rest => do
      let (digits, rest) ← scanDigits rest
      return ('.' :: digits, rest)
  | input => some ([], input)

/-- Reads an exponent, if there is one. -/
def scanExponent : List Char → Option (List Char × List Char)
  | c :: rest =>
      if c == 'e' || c == 'E' then
        match rest with
        | '+' :: rest => do
            let (digits, rest) ← scanDigits rest
            return (c :: '+' :: digits, rest)
        | '-' :: rest => do
            let (digits, rest) ← scanDigits rest
            return (c :: '-' :: digits, rest)
        | rest => do
            let (digits, rest) ← scanDigits rest
            return (c :: digits, rest)
      else some ([], c :: rest)
  | [] => some ([], [])

/-- Reads a number without its sign. A zero may not be followed by digits. -/
def scanMagnitude (negative : Bool) (input : List Char) : Option (Json × List Char) := do
  let (whole, rest) ← scanDigits input
  if whole.head? == some '0' && whole.length > 1 then none
  let (fraction, rest) ← scanFraction rest
  let (exponent, rest) ← scanExponent rest
  let magnitude := digitsValue whole
  if fraction.isEmpty && exponent.isEmpty && !(negative && magnitude == 0) then
    return (.integer (if negative then -magnitude else magnitude), rest)
  else
    let sign := if negative then ['-'] else []
    return (.decimal (String.ofList (sign ++ whole ++ fraction ++ exponent)), rest)

def scanNumber : List Char → Option (Json × List Char)
  | '-' :: rest => scanMagnitude true rest
  | input => scanMagnitude false input

mutual

/-- Reads a value with everything in it. The number bounds the depth of the
recursion. -/
def parseValue : Nat → List Char → Option (Json × List Char)
  | 0, _ => none
  | bound + 1, input =>
      match skipBlank input with
      | 'n' :: 'u' :: 'l' :: 'l' :: rest => some (.null, rest)
      | 't' :: 'r' :: 'u' :: 'e' :: rest => some (.bool true, rest)
      | 'f' :: 'a' :: 'l' :: 's' :: 'e' :: rest => some (.bool false, rest)
      | '"' :: rest => do
          let (pieces, rest) ← scanText rest
          return (.text (textOf pieces), rest)
      | '[' :: rest =>
          match skipBlank rest with
          | ']' :: rest => some (.array [], rest)
          | rest => do
              let (items, rest) ← parseItems bound rest
              return (.array items, rest)
      | '{' :: rest =>
          match skipBlank rest with
          | '}' :: rest => some (.object [], rest)
          | rest => do
              let (fields, rest) ← parseFields bound rest
              return (.object fields, rest)
      | input => scanNumber input

/-- Reads the items of an array, one at least, and its end. -/
def parseItems : Nat → List Char → Option (List Json × List Char)
  | 0, _ => none
  | bound + 1, input => do
      let (item, rest) ← parseValue bound input
      match skipBlank rest with
      | ',' :: rest => do
          let (items, rest) ← parseItems bound rest
          return (item :: items, rest)
      | ']' :: rest => return ([item], rest)
      | _ => none

/-- Reads the fields of an object, one at least, and its end. -/
def parseFields : Nat → List Char → Option (List (Option String × Json) × List Char)
  | 0, _ => none
  | bound + 1, input =>
      match skipBlank input with
      | '"' :: rest => do
          let (pieces, rest) ← scanText rest
          match skipBlank rest with
          | ':' :: rest => do
              let (value, rest) ← parseValue bound rest
              let field := (textOf pieces, value)
              match skipBlank rest with
              | ',' :: rest => do
                  let (fields, rest) ← parseFields bound rest
                  return (field :: fields, rest)
              | '}' :: rest => return ([field], rest)
              | _ => none
          | _ => none
      | _ => none

end

/-- Reads a text that holds one value. The recursion goes down at most twice
for each character. -/
def parse (text : String) : Option Json := do
  let input := text.toList
  let (value, rest) ← parseValue (2 * input.length + 2) input
  if (skipBlank rest).isEmpty then return value else none

end TreePass.Json
