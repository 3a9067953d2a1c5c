import TreePass.Text.Extending
import TreePass.Text.Invisible
import TreePass.Text.Unassigned

/-!
# Printable characters

The characters that are shown as they are inside quotes.
-/

namespace TreePass.Text

/-- Whether a character is shown as it is: it is assigned, it can be seen, and it
stands on its own. -/
def isPrintable (c : Char) : Bool :=
  !isInvisible c && !isExtending c && !isUnassigned c

end TreePass.Text
