import TreePass.Node.Basic

/-!
# Equality of nodes

Two nodes are the same when they agree in name, documentation and attributes
and hold the same members and the same children under the same keys. Neither
the order of the maps nor the recorded paths take part. Two views go with this:
`canonical` erases what plays no part, and `fingerprint` lists what a hash of
the node reads.
-/

namespace TreePass

namespace Node

mutual

/-- Whether two nodes are the same, order and paths aside. -/
def same : Node → Node → Bool
  | ⟨name, documentation, attributes, members, children, _⟩,
    ⟨name', documentation', attributes', members', children', _⟩ =>
      name == name' && documentation == documentation' && attributes == attributes' &&
        Keyed.agree (· == ·) members members' &&
        (children.length == children'.length && sameChildren children children')

/-- Whether each child is the same as the one under its key among `others`. -/
def sameChildren : List (String × Node) → List (String × Node) → Bool
  | [], _ => true
  | (key, child) :: rest, others =>
      (match Keyed.get? key others with
        | some other => child.same other
        | none => false) && sameChildren rest others

end

instance : BEq Node := ⟨same⟩

mutual

/-- The node with both maps sorted by key at every depth, and every path
erased to that of a detached node of the same name. -/
def canonical : Node → Node
  | ⟨name, documentation, attributes, members, children, _⟩ =>
      ⟨name, documentation, attributes, Keyed.sorted members,
        Keyed.sorted (canonicalChildren children), .single name⟩

/-- The canonical form of each child, in place. -/
def canonicalChildren : List (String × Node) → List (String × Node)
  | [] => []
  | (key, child) :: rest => (key, child.canonical) :: canonicalChildren rest

end

end Node

/-- One value that a hash reads. -/
inductive Datum where
  | text (value : String)
  | option (value : Option String)
  | count (value : Nat)
  | attribute (value : Attribute)
deriving DecidableEq

/-- What a hash reads of a set: its size, then its values in order. -/
def AttributeSet.fingerprint (set : AttributeSet) : List Datum :=
  .count set.size :: set.values.map .attribute

def Member.fingerprint (member : Member) : List Datum :=
  [.text member.name, .option member.documentation, .option member.typeName] ++
    member.attributes.fingerprint

namespace Node

/-- What a hash reads of a map: its size, then key and contents of each entry
in ascending order of the keys. -/
def fingerprintMap (entries : List (String × List Datum)) : List Datum :=
  .count entries.length ::
    (Keyed.sorted entries).flatMap fun entry => .text entry.1 :: entry.2

mutual

/-- What a hash reads of a node: everything but the paths and the order of the
maps. -/
def fingerprint : Node → List Datum
  | ⟨name, documentation, attributes, members, children, _⟩ =>
      [.text name, .option documentation] ++ attributes.fingerprint ++
        fingerprintMap (members.map fun entry => (entry.1, entry.2.fingerprint)) ++
        fingerprintMap (fingerprintChildren children)

def fingerprintChildren : List (String × Node) → List (String × List Datum)
  | [] => []
  | (key, child) :: rest => (key, child.fingerprint) :: fingerprintChildren rest

end

end Node

end TreePass
