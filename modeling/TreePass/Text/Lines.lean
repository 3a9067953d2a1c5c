/-!
# Lines of a text

A line ends at a line feed, and a carriage return just before it belongs to
the ending. The end of the text ends a last line that is not empty; a carriage
return there is part of the line.
-/

namespace TreePass.Text

/-- The line whose characters are given last to first, without the carriage
return of its ending. -/
def endedLine : List Char → String
  | '\r' :: reversed => String.ofList reversed.reverse
  | reversed => String.ofList reversed.reverse

/-- The lines of the remaining characters, where `reversed` holds those of the
current line, last to first. -/
def linesFrom (reversed : List Char) : List Char → List String
  | [] => if reversed.isEmpty then [] else [String.ofList reversed.reverse]
  | '\n' :: rest => endedLine reversed :: linesFrom [] rest
  | c :: rest => linesFrom (c :: reversed) rest

/-- The lines of a text, without their endings. -/
def lines (text : String) : List String :=
  linesFrom [] text.toList

end TreePass.Text
