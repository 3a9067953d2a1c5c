import Mathlib.Data.Set.Card
import TreePass.Proofs.Attribute.Order

/-!
# Histories of sets of attributes

Values are put into a set and taken out of it, one at a time, by their keys or as whole
lists. Whatever has been done to it, beginning with nothing, the set holds in ascending
order what a set without any order would hold. So it depends on the values alone that are
left, not on how they came to be there, and what an edit or a look-up answers can be read
off them.
-/

namespace TreePass.AttributeSet

variable {set other : AttributeSet}

/-- What can be done to a set. -/
inductive Edit where
  | insert (value : Attribute)
  | remove (value : Attribute)
  | removeKey (key : String)
  | extend (values : List Attribute)
  | clear
  /-- The set gives way to one that is collected from a list. -/
  | collect (values : List Attribute)

/-- The set that an edit leaves. -/
def Edit.apply (set : AttributeSet) : Edit → AttributeSet
  | .insert value => (set.insert value).2
  | .remove value => (set.remove value).2
  | .removeKey key => (set.removeKey key).2
  | .extend values => set.extend values
  | .clear => empty
  | .collect values => ofList values

/-- The set that a history of edits leaves. -/
def after (history : List Edit) : AttributeSet :=
  history.foldl Edit.apply empty

/-- What an edit leaves of values without order. -/
def Edit.denote (present : Set Attribute) : Edit → Set Attribute
  | .insert value => Insert.insert value present
  | .remove value => present \ {value}
  | .removeKey key => {value ∈ present | value.key ≠ key}
  | .extend values => present ∪ {value | value ∈ values}
  | .clear => ∅
  | .collect values => {value | value ∈ values}

/-- The values that a history of edits leaves. -/
def present (history : List Edit) : Set Attribute :=
  history.foldl Edit.denote ∅

/-! ## What an edit leaves -/

theorem contains_iff {value : Attribute} : set.contains value = true ↔ value ∈ set.values := by
  simp only [contains, List.any_eq_true, beq_iff_eq]
  constructor
  · rintro ⟨found, hfound, hsame⟩
    rwa [Attribute.eq_of_compare hsame]
  · exact fun hmem => ⟨value, hmem, Attribute.compare_self value⟩

theorem mem_remove {value found : Attribute} :
    found ∈ (set.remove value).2.values ↔ found ∈ set.values ∧ found ≠ value := by
  have hsame : value.compare found = .eq ↔ found = value :=
    ⟨fun hsame => (Attribute.eq_of_compare hsame).symm,
      fun hsame => hsame ▸ Attribute.compare_self _⟩
  simp [remove, hsame]

theorem mem_extend {values : List Attribute} {found : Attribute} :
    found ∈ (set.extend values).values ↔ found ∈ set.values ∨ found ∈ values := by
  induction values generalizing set with
  | nil => simp [extend]
  | cons value rest ih =>
      rw [extend, List.foldl_cons, ← extend, ih, including, insert, mem_place, List.mem_cons]
      tauto

theorem pairwise_extend {values : List Attribute}
    (hset : set.values.Pairwise fun a b => a.compare b = .lt) :
    (set.extend values).values.Pairwise fun a b => a.compare b = .lt := by
  induction values generalizing set with
  | nil => exact hset
  | cons value rest ih => exact ih (place_pairwise value hset)

/-- An edit leaves the same values of a set, where they have an order, as without one. -/
theorem mem_apply (edit : Edit) (value : Attribute) :
    value ∈ (edit.apply set).values ↔ value ∈ edit.denote {value | value ∈ set.values} := by
  cases edit with
  | insert other => exact mem_place
  | remove other => exact mem_remove
  | removeKey key => simp [Edit.apply, Edit.denote, removeKey]
  | extend values => exact mem_extend
  | clear => simp [Edit.apply, Edit.denote, empty]
  | collect values =>
      rw [Edit.apply, ofList, mem_extend]
      simp [Edit.denote, empty]

theorem pairwise_apply (edit : Edit) (hset : set.values.Pairwise fun a b => a.compare b = .lt) :
    (edit.apply set).values.Pairwise fun a b => a.compare b = .lt := by
  cases edit with
  | insert value => exact place_pairwise value hset
  | remove value => exact hset.filter _
  | removeKey key => exact hset.filter _
  | extend values => exact pairwise_extend hset
  | clear => exact .nil
  | collect values => exact pairwise_extend .nil

/-! ## What a history leaves -/

theorem after_concat (history : List Edit) (edit : Edit) :
    after (history ++ [edit]) = edit.apply (after history) := by
  rw [after, List.foldl_append, List.foldl_cons, List.foldl_nil, ← after]

theorem present_concat (history : List Edit) (edit : Edit) :
    present (history ++ [edit]) = edit.denote (present history) := by
  rw [present, List.foldl_append, List.foldl_cons, List.foldl_nil, ← present]

theorem mem_after (history : List Edit) (value : Attribute) :
    value ∈ (after history).values ↔ value ∈ present history := by
  induction history using List.reverseRecOn generalizing value with
  | nil => simp [after, present, empty]
  | append_singleton history edit ih =>
      have hpresent : {value | value ∈ (after history).values} = present history := Set.ext ih
      rw [after_concat, mem_apply, hpresent, present_concat]

theorem pairwise_after (history : List Edit) :
    (after history).values.Pairwise fun a b => a.compare b = .lt := by
  induction history using List.reverseRecOn with
  | nil => exact .nil
  | append_singleton history edit ih =>
      rw [after_concat]
      exact pairwise_apply edit ih

theorem nodup_of_pairwise {values : List Attribute}
    (hvalues : values.Pairwise fun a b => a.compare b = .lt) : values.Nodup := by
  refine hvalues.imp fun {a b} hlt heq => ?_
  rw [heq, Attribute.compare_self] at hlt
  cases hlt

/-- Of the same values there is only one ascending list. -/
theorem eq_of_mem_iff (hset : set.values.Pairwise fun a b => a.compare b = .lt)
    (hother : other.values.Pairwise fun a b => a.compare b = .lt)
    (hsame : ∀ value, value ∈ set.values ↔ value ∈ other.values) : set = other := by
  have hperm : set.values.Perm other.values :=
    (List.perm_ext_iff_of_nodup (nodup_of_pairwise hset) (nodup_of_pairwise hother)).mpr
      fun value => hsame value
  have hvalues : set.values = other.values := by
    refine hperm.eq_of_pairwise (fun a b _ _ hab hba => ?_) hset hother
    rw [← Attribute.compare_swap, hab] at hba
    cases hba
  exact congrArg mk hvalues

/-! ## Answers -/

theorem insert_answer {value : Attribute} :
    (set.insert value).1 = true ↔ value ∉ set.values := by
  rw [← contains_iff, insert, Bool.not_eq_true', Bool.not_eq_true]

theorem remove_answer {value : Attribute} : (set.remove value).1 = true ↔ value ∈ set.values := by
  rw [← contains_iff, remove]

theorem removeKey_answer (set : AttributeSet) (key : String) :
    (set.removeKey key).1 = (set.values.filter fun value => value.key == key).length := by
  have hsplit := List.length_eq_length_filter_add (l := set.values) fun value => value.key == key
  have hkept : (set.values.filter fun value => !value.key == key) =
      set.values.filter fun value => value.key != key := rfl
  rw [hkept] at hsplit
  simp only [removeKey]
  omega

theorem containsKey_iff {key : String} :
    set.containsKey key = true ↔ ∃ value ∈ set.values, value.key = key := by
  simp [containsKey]

theorem get?_eq_none_iff {key : String} : set.get? key = none ↔ set.containsKey key = false := by
  simp [get?, containsKey]

/-- In an ascending list the first value of a key is the least one. -/
theorem get?_eq_some_iff (hset : set.values.Pairwise fun a b => a.compare b = .lt) {key : String}
    {value : Attribute} : set.get? key = some value ↔ value ∈ set.values ∧ value.key = key ∧
      ∀ found ∈ set.values, found.key = key → (value.compare found).isLE = true := by
  obtain ⟨values⟩ := set
  simp only [get?] at hset ⊢
  induction values with
  | nil => simp
  | cons first rest ih =>
      obtain ⟨hfirst, hrest⟩ := List.pairwise_cons.mp hset
      by_cases hkey : first.key = key
      · rw [List.find?_cons_of_pos (by simpa using hkey), Option.some_inj]
        constructor
        · rintro rfl
          refine ⟨List.mem_cons_self, hkey, fun found hfound _ => ?_⟩
          rcases List.mem_cons.mp hfound with rfl | hfound
          · rw [Attribute.compare_self]
            rfl
          · rw [hfirst found hfound]
            rfl
        · rintro ⟨hvalue, -, hleast⟩
          rcases List.mem_cons.mp hvalue with rfl | hvalue
          · rfl
          · have hbefore := hleast first List.mem_cons_self hkey
            rw [← Attribute.compare_swap, hfirst value hvalue] at hbefore
            cases hbefore
      · have hother : value.key = key → value ≠ first := fun hvalue heq => hkey (heq ▸ hvalue)
        rw [List.find?_cons_of_neg (by simpa using hkey), ih hrest]
        simp only [List.mem_cons, forall_eq_or_imp]
        tauto

/-! ## The whole of it -/

/-- Whatever its history, a set holds the values that are left in ascending order, each
once, and is the only set that does: histories that leave the same values leave the same
set. To put a value in or to take it out answers whether other values are left than before;
to take out a key answers how many values had it. A key is found if some value has it, and
leads to the least one that has. -/
theorem after_canonical (history : List Edit) :
    ((after history).values.Pairwise (fun a b => a.compare b = .lt) ∧
        (after history).values.Nodup ∧
        ∀ value, value ∈ (after history).values ↔ value ∈ present history) ∧
      (∀ other, after other = after history ↔ present other = present history) ∧
      (∀ value, ((after history).insert value).1 = true ↔
        present (history ++ [.insert value]) ≠ present history) ∧
      (∀ value, ((after history).remove value).1 = true ↔
        present (history ++ [.remove value]) ≠ present history) ∧
      (∀ key, ((after history).removeKey key).1 =
        {value ∈ present history | value.key = key}.ncard) ∧
      ∀ key,
        ((after history).containsKey key = true ↔ ∃ value ∈ present history, value.key = key) ∧
        ((after history).get? key = none ↔ (after history).containsKey key = false) ∧
        ∀ value, (after history).get? key = some value ↔
          value ∈ present history ∧ value.key = key ∧
            ∀ found ∈ present history, found.key = key → (value.compare found).isLE = true := by
  have hpairwise := pairwise_after history
  refine ⟨⟨hpairwise, nodup_of_pairwise hpairwise, mem_after history⟩, fun other => ?same,
    fun value => ?insert, fun value => ?remove, fun key => ?removeKey,
    fun key => ⟨?contains, get?_eq_none_iff, fun value => ?get⟩⟩
  case same =>
    constructor
    · intro hsame
      ext value
      rw [← mem_after, ← mem_after, hsame]
    · intro hsame
      apply eq_of_mem_iff (pairwise_after other) hpairwise
      simp only [mem_after, hsame, implies_true]
  case insert =>
    rw [insert_answer, mem_after, present_concat, Edit.denote, Ne, Set.insert_eq_self]
  case remove =>
    rw [remove_answer, mem_after, present_concat, Edit.denote, Ne, sdiff_eq_left,
      Set.disjoint_singleton_right, not_not]
  case removeKey =>
    have hset : {value ∈ present history | value.key = key} =
        ((after history).values.filter fun value => value.key == key).toFinset := by
      ext value
      simp [mem_after]
    rw [hset, Set.ncard_coe_finset, removeKey_answer, List.toFinset_card_of_nodup]
    exact (nodup_of_pairwise hpairwise).filter _
  case contains => simp only [containsKey_iff, mem_after]
  case get => simp only [get?_eq_some_iff hpairwise, mem_after]

/-- Values of one key need not stand together. -/
example :
    let set := after [.insert (.bool "b" true), .extend [.text "a" "", .flag "c", .flag "b"],
      .remove (.flag "c")]
    set.values = [.flag "b", .text "a" "", .bool "b" true] ∧
      set.get? "b" = some (.flag "b") ∧ (set.removeKey "b").1 = 2 := by
  decide

end TreePass.AttributeSet
