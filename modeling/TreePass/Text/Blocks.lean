/-!
# Blocks of code points

A property of characters is a table of blocks: pairs of a first and a last code
point, in ascending order and apart from each other. The tables of this library
state their properties as Unicode 17 assigns them.
-/

namespace TreePass.Text

/-- Whether a code point lies in one of the blocks. The blocks ascend, so the
search ends at the first block that starts after the code point. -/
def inBlocks : List (Nat × Nat) → Nat → Bool
  | [], _ => false
  | (first, last) :: rest, code => first ≤ code && (code ≤ last || inBlocks rest code)

end TreePass.Text
