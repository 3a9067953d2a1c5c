import TreePass.Rewrite

/-!
# Settings

The settings of a chain apply to all of its passes.
-/

namespace TreePass

def version : String := "0.1.0"

/-- How the passes of a chain are linked and applied. -/
structure Settings where
  missingChild : MissingChild := .refuse
  /-- Whether a declared pass that the chain does not reach is a fault. -/
  rejectUnreachable : Bool := false
  /-- Whether visits of nodes are to be logged; no result depends on it. -/
  traceNodes : Bool := false
deriving DecidableEq, Repr

def Settings.rewriter (settings : Settings) : Rewriter where
  missingChild := settings.missingChild

end TreePass
