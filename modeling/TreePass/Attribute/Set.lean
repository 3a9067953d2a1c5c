import TreePass.Attribute.Basic

/-!
# Sets of attributes

A set keeps its attributes in ascending order, each once. Operations that may
or may not change a set answer whether they did, or how much, before the set
that results.
-/

namespace TreePass

/-- Attributes in ascending order, without repetition. -/
structure AttributeSet where
  /-- The attributes, ascending. -/
  values : List Attribute
deriving DecidableEq, Inhabited

namespace AttributeSet

/-- The set without attributes. -/
def empty : AttributeSet := ⟨[]⟩

def contains (set : AttributeSet) (value : Attribute) : Bool :=
  set.values.any fun other => value.compare other == .eq

/-- Puts a value at its place in an ascending list, unless it is there. -/
def place (value : Attribute) : List Attribute → List Attribute
  | [] => [value]
  | other :: rest =>
      match value.compare other with
      | .lt => value :: other :: rest
      | .eq => other :: rest
      | .gt => other :: place value rest

/-- Adds a value and answers whether the set grew. -/
def insert (set : AttributeSet) (value : Attribute) : Bool × AttributeSet :=
  (!set.contains value, ⟨place value set.values⟩)

def including (set : AttributeSet) (value : Attribute) : AttributeSet :=
  (set.insert value).2

/-- Takes a value out and answers whether it was there. -/
def remove (set : AttributeSet) (value : Attribute) : Bool × AttributeSet :=
  (set.contains value, ⟨set.values.filter fun other => value.compare other != .eq⟩)

/-- Takes out every value with the given key and answers how many there were. -/
def removeKey (set : AttributeSet) (key : String) : Nat × AttributeSet :=
  let kept := set.values.filter fun value => value.key != key
  (set.values.length - kept.length, ⟨kept⟩)

/-- Whether some value has the given key. -/
def containsKey (set : AttributeSet) (key : String) : Bool :=
  set.values.any fun value => value.key == key

/-- The least value with the given key. -/
def get? (set : AttributeSet) (key : String) : Option Attribute :=
  set.values.find? fun value => value.key == key

def size (set : AttributeSet) : Nat := set.values.length

def isEmpty (set : AttributeSet) : Bool := set.values.isEmpty

def extend (set : AttributeSet) (values : List Attribute) : AttributeSet :=
  values.foldl including set

def ofList (values : List Attribute) : AttributeSet :=
  empty.extend values

/-- The values between brackets, as they are shown. -/
def display (set : AttributeSet) : String :=
  "[" ++ String.intercalate ", " (set.values.map Attribute.display) ++ "]"

end AttributeSet

end TreePass
