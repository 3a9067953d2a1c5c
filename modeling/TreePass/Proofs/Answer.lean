/-!
# Answers

An answer is a value or the fault that stands in its place. Of a sequence, the
first fault counts; a value comes out only if everything before it gave one.
-/

namespace TreePass

variable {ε α β : Type}

@[simp] theorem ok_bind (value : α) (f : α → Except ε β) : (.ok value >>= f) = f value := rfl

@[simp] theorem error_bind (fault : ε) (f : α → Except ε β) :
    (.error fault >>= f) = .error fault := rfl

theorem bind_eq_ok {x : Except ε α} {f : α → Except ε β} {value : β} :
    (x >>= f) = .ok value ↔ ∃ middle, x = .ok middle ∧ f middle = .ok value := by
  cases x with
  | error fault => simp
  | ok middle => simp

theorem bind_eq_error {x : Except ε α} {f : α → Except ε β} {fault : ε} :
    (x >>= f) = .error fault ↔
      x = .error fault ∨ ∃ middle, x = .ok middle ∧ f middle = .error fault := by
  cases x with
  | error first => simp
  | ok middle => simp

/-- Functions that agree on the items of a list come to the same on the list. -/
theorem mapM_congr {f g : α → Except ε β} {items : List α}
    (hitems : ∀ item ∈ items, f item = g item) : items.mapM f = items.mapM g := by
  induction items with
  | nil => rfl
  | cons item rest ih =>
      obtain ⟨hitem, hrest⟩ := List.forall_mem_cons.mp hitems
      rw [List.mapM_cons, List.mapM_cons, hitem, ih hrest]

/-- Whatever a list comes to was made of some item of it. -/
theorem exists_of_mem_mapM {f : α → Except ε β} {items : List α} {values : List β} {value : β}
    (hvalues : items.mapM f = .ok values) (hmem : value ∈ values) :
    ∃ item ∈ items, f item = .ok value := by
  induction items generalizing values with
  | nil =>
      cases hvalues
      simp at hmem
  | cons item rest ih =>
      rw [List.mapM_cons] at hvalues
      obtain ⟨first, hfirst, hvalues⟩ := bind_eq_ok.mp hvalues
      obtain ⟨others, hothers, hvalues⟩ := bind_eq_ok.mp hvalues
      cases hvalues
      rcases List.mem_cons.mp hmem with rfl | hlater
      · exact ⟨item, List.mem_cons_self, hfirst⟩
      · obtain ⟨other, hother, heq⟩ := ih hothers hlater
        exact ⟨other, List.mem_cons_of_mem _ hother, heq⟩

/-- A list fails at the first of its items that does, with the fault of that one. -/
theorem split_of_mapM_error {f : α → Except ε β} {items : List α} {fault : ε}
    (hfault : items.mapM f = .error fault) : ∃ before item after,
      items = before ++ item :: after ∧ (∀ other ∈ before, ∃ value, f other = .ok value) ∧
        f item = .error fault := by
  induction items with
  | nil => cases hfault
  | cons item rest ih =>
      rw [List.mapM_cons] at hfault
      rcases bind_eq_error.mp hfault with hfirst | ⟨first, hfirst, hfault⟩
      · exact ⟨[], item, rest, rfl, by simp, hfirst⟩
      · rcases bind_eq_error.mp hfault with hrest | ⟨others, -, hothers⟩
        · obtain ⟨before, failing, after, rfl, hbefore, hfailing⟩ := ih hrest
          exact ⟨item :: before, failing, after, rfl,
            List.forall_mem_cons.mpr ⟨⟨first, hfirst⟩, hbefore⟩, hfailing⟩
        · cases hothers

/-- A fault of a list is the fault of some item of it. -/
theorem exists_of_mapM_error {f : α → Except ε β} {items : List α} {fault : ε}
    (hfault : items.mapM f = .error fault) : ∃ item ∈ items, f item = .error fault := by
  obtain ⟨before, item, after, rfl, -, hitem⟩ := split_of_mapM_error hfault
  exact ⟨item, List.mem_append_right _ List.mem_cons_self, hitem⟩

/-- Where every value shows what it was made of, a list of values shows the list
of items. -/
theorem map_eq_of_mapM {f : α → Except ε β} {source : β → α} {items : List α}
    {values : List β} (hvalues : items.mapM f = .ok values)
    (hsource : ∀ item value, f item = .ok value → source value = item) :
    values.map source = items := by
  induction items generalizing values with
  | nil =>
      cases hvalues
      rfl
  | cons item rest ih =>
      rw [List.mapM_cons] at hvalues
      obtain ⟨first, hfirst, hvalues⟩ := bind_eq_ok.mp hvalues
      obtain ⟨others, hothers, hvalues⟩ := bind_eq_ok.mp hvalues
      cases hvalues
      rw [List.map_cons, hsource item first hfirst, ih hothers]

/-- The fault of an answer, if it is one. -/
def fault? : Except ε α → Option ε
  | .ok _ => none
  | .error fault => some fault

theorem fault?_eq_some_iff {answer : Except ε α} {fault : ε} :
    fault? answer = some fault ↔ answer = .error fault := by
  cases answer <;> simp [fault?]

theorem fault?_map (answer : Except ε α) (f : α → β) :
    fault? (answer >>= fun value => pure (f value)) = fault? answer := by
  cases answer <;> rfl

/-- A second part that fails in one way, whatever it goes on from, fails if the first
part does not. -/
theorem fault?_bind {answer : Except ε α} {next : α → Except ε β} {fault : Option ε}
    (hnext : ∀ value, fault? (next value) = fault) :
    fault? (answer >>= next) = (fault? answer).or fault := by
  cases answer with
  | error first => rfl
  | ok value => exact hnext value

theorem fault?_mapM (f : α → Except ε β) (items : List α) :
    fault? (items.mapM f) = items.findSome? fun item => fault? (f item) := by
  induction items with
  | nil => rfl
  | cons item rest ih =>
      rw [List.mapM_cons, List.findSome?_cons, ← ih]
      cases f item with
      | error fault => rfl
      | ok value => exact fault?_map (rest.mapM f) (value :: ·)

/-- A value, or the fault that stands in its place. -/
def unlessFault (fault : Option ε) (value : α) : Except ε α :=
  fault.elim (.ok value) .error

theorem unlessFault_eq_ok_iff {fault : Option ε} {value made : α} :
    unlessFault fault value = .ok made ↔ fault = none ∧ value = made := by
  cases fault <;> simp [unlessFault]

theorem findSome?_flatMap {γ : Type} (f : β → Option γ) (g : α → List β) (items : List α) :
    (items.flatMap g).findSome? f = items.findSome? fun item => (g item).findSome? f := by
  induction items with
  | nil => rfl
  | cons item rest ih =>
      rw [List.flatMap_cons, List.findSome?_append, ih, List.findSome?_cons]
      cases (g item).findSome? f <;> rfl

theorem findSome?_congr {f g : α → Option β} {items : List α}
    (hitems : ∀ item ∈ items, f item = g item) : items.findSome? f = items.findSome? g := by
  induction items with
  | nil => rfl
  | cons item rest ih =>
      obtain ⟨hitem, hrest⟩ := List.forall_mem_cons.mp hitems
      rw [List.findSome?_cons, List.findSome?_cons, hitem, ih hrest]

/-- Where each item fails or answers by itself, the first fault of a list is the
fault of the list. -/
theorem mapM_unlessFault {γ : Type} {f : α → Except ε β} {subject : γ → α}
    {fault : γ → Option ε} {value : γ → β} {items : List γ}
    (hitem : ∀ item ∈ items, f (subject item) = unlessFault (fault item) (value item)) :
    (items.map subject).mapM f = unlessFault (items.findSome? fault) (items.map value) := by
  induction items with
  | nil => rfl
  | cons item rest ih =>
      have hrest := ih fun other hother => hitem other (List.mem_cons_of_mem _ hother)
      rw [List.map_cons, List.mapM_cons, hitem item List.mem_cons_self, hrest]
      cases hfault : fault item with
      | some found =>
          rw [List.findSome?_cons, hfault]
          rfl
      | none =>
          rw [List.findSome?_cons, hfault]
          cases rest.findSome? fault <;> rfl

end TreePass
