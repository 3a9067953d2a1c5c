import TreePass.Outline
import TreePass.Plan

/-!
# Adapters

A reader turns a text into a chain of passes, a renderer turns a forest into a
text. A registry keeps readers and renderers by name, in ascending order of the
names; registering under a name that is taken replaces its bearer.
-/

namespace TreePass

/-- The arguments of an adapter, by name. -/
abbrev Arguments := List (String × String)

/-- Turns a text into a chain. -/
structure Reader (m : Type → Type) where
  name : String
  read : String → Arguments → Except Fault (Chain m)

/-- Turns a forest into a text, given a directory for what it may produce. -/
structure Renderer where
  name : String
  render : Forest → String → Arguments → Except Fault String

/-- Readers and renderers by name. -/
structure Registry (m : Type → Type) where
  readers : List (String × Reader m) := []
  renderers : List (String × Renderer) := []

/-- Renders the outline of a forest, or of the first root of the name given as
the argument `root`. -/
def Renderer.outline : Renderer where
  name := "outline"
  render forest _ arguments :=
    match Keyed.get? "root" arguments with
    | none => .ok forest.outline
    | some name =>
        match forest.root? name with
        | some root => .ok root.outline
        | none => .error (.custom s!"Root '{name}' not found in hierarchy")

namespace Registry

variable {m : Type → Type}

/-- The registry without adapters. -/
def empty : Registry m := {}

def addReader (registry : Registry m) (reader : Reader m) : Registry m :=
  { registry with readers := Keyed.putSorted reader.name reader registry.readers }

def addRenderer (registry : Registry m) (renderer : Renderer) : Registry m :=
  { registry with renderers := Keyed.putSorted renderer.name renderer registry.renderers }

/-- The registry with the outline renderer alone. -/
def standard : Registry m := empty.addRenderer .outline

def reader (registry : Registry m) (name : String) : Except AdapterFault (Reader m) :=
  match Keyed.get? name registry.readers with
  | some reader => .ok reader
  | none => .error (.unknownAdapter .input name)

def renderer (registry : Registry m) (name : String) : Except AdapterFault Renderer :=
  match Keyed.get? name registry.renderers with
  | some renderer => .ok renderer
  | none => .error (.unknownAdapter .output name)

/-- The names of the readers, ascending. -/
def readerNames (registry : Registry m) : List String := Keyed.keys registry.readers

/-- The names of the renderers, ascending. -/
def rendererNames (registry : Registry m) : List String := Keyed.keys registry.renderers

def read (registry : Registry m) (name input : String) (arguments : Arguments) :
    Except Fault (Chain m) := do
  let reader ← (registry.reader name).mapError .adapter
  reader.read input arguments

def render (registry : Registry m) (name : String) (forest : Forest) (directory : String)
    (arguments : Arguments) : Except Fault String := do
  let renderer ← (registry.renderer name).mapError .adapter
  renderer.render forest directory arguments

def describe (registry : Registry m) : String :=
  "AdapterRegistry \x7b inputs: " ++ Text.quotedList registry.readerNames ++
    ", outputs: " ++ Text.quotedList registry.rendererNames ++ " \x7d"

end Registry

end TreePass
