/-!
# Paths

A path is the list of names that leads from a root down to a node. It has a
first name by construction, so it is never empty. Its text joins the names with
a separator; `parse` reads such a text and refuses empty names, while
`ofSegments` takes any names at all.
-/

namespace TreePass

/-- Why a path cannot be made. -/
inductive PathFault where
  | empty
  /-- The text has an empty name between, before or after its separators. -/
  | emptySegment (input : String)
  | noParent (path : String)
deriving DecidableEq, Repr

/-- The wording of a path fault. -/
def PathFault.message : PathFault → String
  | .empty => "Node path cannot be empty"
  | .emptySegment input => s!"Node path '{input}' contains an empty segment"
  | .noParent path => s!"Root path '{path}' has no parent"

/-- A non-empty list of names. -/
structure Path where
  root : String
  /-- The names below the root, in order. -/
  rest : List String
deriving DecidableEq, Repr, Inhabited

namespace Path

def separator : Char := '.'

def single (name : String) : Path := ⟨name, []⟩

/-- All names of the path, root first. -/
def segments (path : Path) : List String := path.root :: path.rest

def ofSegments : List String → Except PathFault Path
  | [] => .error .empty
  | name :: rest => .ok ⟨name, rest⟩

/-- Cuts a text at every separator, into the first piece and the others. -/
def pieces : List Char → List Char × List (List Char)
  | [] => ([], [])
  | c :: rest =>
      let (first, others) := pieces rest
      if c = separator then ([], first :: others) else (c :: first, others)

/-- Reads names joined by separators; every name has to be non-empty. -/
def parse (input : String) : Except PathFault Path :=
  let (first, others) := pieces input.toList
  if input.isEmpty then .error .empty
  else if (first :: others).any List.isEmpty then .error (.emptySegment input)
  else .ok ⟨String.ofList first, others.map String.ofList⟩

def text (path : Path) : String :=
  path.rest.foldl (fun text name => text ++ separator.toString ++ name) path.root

def leaf (path : Path) : String := path.rest.getLastD path.root

/-- The number of edges between the root and the addressed node. -/
def depth (path : Path) : Nat := path.rest.length

def length (path : Path) : Nat := path.rest.length + 1

def isRoot (path : Path) : Bool := path.rest.isEmpty

/-- The path without its last name. -/
def parent (path : Path) : Except PathFault Path :=
  match path.rest with
  | [] => .error (.noParent path.text)
  | _ :: _ => .ok ⟨path.root, path.rest.dropLast⟩

def child (path : Path) (name : String) : Path :=
  ⟨path.root, path.rest ++ [name]⟩

/-- The path with its last name replaced. -/
def withLeaf (path : Path) (name : String) : Path :=
  match path.rest with
  | [] => single name
  | _ :: _ => ⟨path.root, path.rest.dropLast ++ [name]⟩

/-- Whether `ancestor` addresses the node itself or one above it. -/
def startsWith (path ancestor : Path) : Bool :=
  ancestor.segments.isPrefixOf path.segments

/-- Moves a path from under `old` to the same place under `new`; there is none
when the path does not start with `old`. -/
def rebase (path old new : Path) : Option Path :=
  if path.startsWith old then
    some ⟨new.root, new.rest ++ path.segments.drop old.length⟩
  else none

/-- Lexicographic order of the names, each compared by code points. -/
instance : Ord Path := ⟨fun a b => compare a.segments b.segments⟩

@[simp] theorem segments_single (name : String) : (single name).segments = [name] := rfl

@[simp] theorem segments_child (path : Path) (name : String) :
    (path.child name).segments = path.segments ++ [name] := rfl

@[simp] theorem length_child (path : Path) (name : String) :
    (path.child name).length = path.length + 1 := by
  simp [length, child]

theorem length_segments (path : Path) : path.segments.length = path.length := rfl

end Path

end TreePass
