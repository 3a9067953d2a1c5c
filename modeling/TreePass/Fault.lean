import TreePass.Staging.Build

/-!
# Faults

A fault says why a step of the work did not succeed. Rules, rewriters and
adapters raise a `Fault`, which keeps the typed cause where there is one. A
`Failure` is what a chain answers: the same causes, each introduced by the part
of the library that it comes from, where whatever stops a rewrite counts as a
failure of the rewrite.
-/

namespace TreePass

/-- What is wrong with the passes of a chain, or with a name asked for. -/
inductive PassFault where
  /-- The name of the first pass is missing, empty or reserved. -/
  | invalidRootName (name : String)
  | reservedPassName (name : String)
  | duplicatePass (name : String)
  | passNotFound (name referencedBy : String)
  | circularReference (pass source : String)
  /-- A pass declares another predecessor than the one it follows. -/
  | inconsistentLineage (pass declared actual : String)
  | unreachablePass (name : String)
  | notInSequence (name : String)
deriving DecidableEq, Repr

/-- The wording of a pass fault. -/
def PassFault.message : PassFault → String
  | .invalidRootName name => s!"Invalid root pass name '{name}'"
  | .reservedPassName name => s!"Pass name '{name}' is reserved"
  | .duplicatePass name => s!"Pass '{name}' is declared more than once"
  | .passNotFound name referencedBy =>
      s!"Pass '{name}' referenced by '{referencedBy}' was not found"
  | .circularReference pass source =>
      s!"Circular reference: pass '{source}' links back to '{pass}'"
  | .inconsistentLineage pass declared actual =>
      s!"Inconsistent lineage: pass '{pass}' declares previous pass '{declared}' but follows '{actual}'"
  | .unreachablePass name => s!"Pass '{name}' is not reachable from the root pass"
  | .notInSequence name => s!"Pass '{name}' is not part of this sequence"

/-- The side of a chain that an adapter stands on. -/
inductive Side where
  | input
  | output
deriving DecidableEq, Repr

def Side.text : Side → String
  | .input => "input"
  | .output => "output"

/-- What is wrong with the use of an adapter. -/
inductive AdapterFault where
  | unknownAdapter (side : Side) (name : String)
deriving DecidableEq, Repr

/-- The wording of an adapter fault. -/
def AdapterFault.message : AdapterFault → String
  | .unknownAdapter side name => s!"Unknown {side.text} adapter '{name}'"

/-- Why a rule, a rewrite or an adapter gave up. -/
inductive Fault where
  | path (fault : PathFault)
  | build (fault : BuildFault)
  | pass (fault : PassFault)
  | adapter (fault : AdapterFault)
  /-- A fault that a rule or an adapter words itself. -/
  | custom (message : String)
  | tooDeep
deriving DecidableEq, Repr

/-- The wording of a fault. -/
def Fault.message : Fault → String
  | .path fault => fault.message
  | .build fault => fault.message
  | .pass fault => fault.message
  | .adapter fault => fault.message
  | .custom message => message
  | .tooDeep => "The rewrite went deeper than its limit"

/-- Why a chain has no answer. -/
inductive Failure where
  | path (fault : PathFault)
  | build (fault : BuildFault)
  | pass (fault : PassFault)
  | adapter (fault : AdapterFault)
  | rewrite (fault : Fault)
deriving DecidableEq, Repr

/-- The wording of a failure: where it comes from, and the fault. -/
def Failure.message : Failure → String
  | .path fault => "Path error: " ++ fault.message
  | .build fault => "Build error: " ++ fault.message
  | .pass fault => "Pass error: " ++ fault.message
  | .adapter fault => "Adapter error: " ++ fault.message
  | .rewrite fault => "Transformation error: " ++ fault.message

end TreePass
