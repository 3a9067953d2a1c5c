/-!
# Insertion-ordered maps

A map is kept as the list of its entries. The order of the list is the order of
insertion: storing under a key that is already there keeps its place, and
storing under a new key appends. Nothing here requires the keys of a list to be
distinct; `Distinct` says when they are, and every operation that starts from
the empty list keeps it.
-/

namespace TreePass.Keyed

variable {κ α β : Type} [DecidableEq κ]

/-- The value of the first entry under `key`. -/
def get? (key : κ) : List (κ × α) → Option α
  | [] => none
  | (k, value) :: rest => if k = key then some value else get? key rest

/-- Whether some entry has the given key. -/
def contains (key : κ) (entries : List (κ × α)) : Bool :=
  (get? key entries).isSome

/-- Stores a value: in place when the key is present, at the end otherwise. -/
def put (key : κ) (value : α) : List (κ × α) → List (κ × α)
  | [] => [(key, value)]
  | (k, old) :: rest =>
      if k = key then (k, value) :: rest else (k, old) :: put key value rest

/-- Drops every entry under `key`; the others keep their order. -/
def erase (key : κ) (entries : List (κ × α)) : List (κ × α) :=
  entries.filter fun entry => entry.1 ≠ key

/-- Applies `f` to the value of the first entry under `key`. -/
def update (key : κ) (f : α → α) : List (κ × α) → List (κ × α)
  | [] => []
  | (k, value) :: rest =>
      if k = key then (k, f value) :: rest else (k, value) :: update key f rest

/-- The keys, in order. -/
def keys (entries : List (κ × α)) : List κ :=
  entries.map Prod.fst

/-- The values, in order. -/
def values (entries : List (κ × α)) : List α :=
  entries.map Prod.snd

/-- The map that results from storing the pairs one after the other. -/
def ofList (pairs : List (κ × α)) : List (κ × α) :=
  pairs.foldl (fun entries pair => put pair.1 pair.2 entries) []

/-- No key occurs twice. -/
def Distinct (entries : List (κ × α)) : Prop :=
  (keys entries).Nodup

/-- Equality as maps: equally many entries, and each value on the left is
related to the value under the same key on the right. The order plays no part. -/
def agree (same : α → α → Bool) (entries others : List (κ × α)) : Bool :=
  entries.length == others.length &&
    entries.all fun entry =>
      match get? entry.1 others with
      | some other => same entry.2 other
      | none => false

/-- Stores a value into a map that is kept in ascending order of its text keys. -/
def putSorted (key : String) (value : α) : List (String × α) → List (String × α)
  | [] => [(key, value)]
  | (k, old) :: rest =>
      match compare key k with
      | .lt => (key, value) :: (k, old) :: rest
      | .eq => (key, value) :: rest
      | .gt => (k, old) :: putSorted key value rest

/-- The entries in ascending order of their keys; of entries under one key the
last counts. -/
def sorted (entries : List (String × α)) : List (String × α) :=
  entries.foldl (fun done entry => putSorted entry.1 entry.2 done) []

@[simp] theorem get?_nil (key : κ) : get? key ([] : List (κ × α)) = none := rfl

theorem get?_cons (key k : κ) (value : α) (rest : List (κ × α)) :
    get? key ((k, value) :: rest) = if k = key then some value else get? key rest := rfl

/-- Storing changes the answer for the stored key and for no other. -/
theorem get?_put (key key' : κ) (value : α) (entries : List (κ × α)) :
    get? key' (put key value entries) =
      if key = key' then some value else get? key' entries := by
  induction entries with
  | nil => simp [put, get?]
  | cons entry rest ih =>
      obtain ⟨k, old⟩ := entry
      by_cases hk : k = key
      · subst hk
        by_cases hk' : k = key' <;> simp [put, get?, hk']
      · by_cases hk' : k = key'
        · subst hk'
          have hne : key ≠ k := fun heq => hk heq.symm
          simp [put, get?, hk, hne]
        · simp [put, get?, hk, hk', ih]

/-- A key has an entry exactly when it is listed. -/
theorem contains_iff_mem_keys (key : κ) (entries : List (κ × α)) :
    contains key entries = true ↔ key ∈ keys entries := by
  induction entries with
  | nil => simp [contains, get?, keys]
  | cons entry rest ih =>
      obtain ⟨k, value⟩ := entry
      by_cases hk : k = key
      · simp [contains, get?, keys, hk]
      · have hk' : ¬ key = k := fun heq => hk heq.symm
        simpa [contains, get?, keys, hk, hk'] using ih

end TreePass.Keyed
