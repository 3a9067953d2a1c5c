import TreePass.Attribute.Set
import TreePass.Proofs.Keyed

/-!
# Ascending attributes

Sets of attributes and the fields of records are kept in ascending order, each value and
each name once. The order of attributes is the same read from both sides, and it goes on
from attribute to attribute. So an ascending list is what comes of putting its items to
their places one by one, and it stays ascending whatever is put in or taken out.
-/

namespace TreePass

/-- How a first item compares with a second one, the second with a third one and, as a
whole, the first with the third one, where an order goes on from item to item. -/
structure Chained (first second whole : Ordering) : Prop where
  isLE : first.isLE → second.isLE → whole.isLE
  eq : first.isLE → second.isLE → whole = .eq → first = .eq ∧ second = .eq

namespace Chained

theorem of_compare {α : Type} [Ord α] [Std.TransOrd α] (a b c : α) :
    Chained (compare a b) (compare b c) (compare a c) where
  isLE := Std.TransCmp.isLE_trans
  eq hab hbc hac := by
    have hsame : compare a b = compare c b := Std.TransCmp.congr_left hac
    have hswap : compare c b = (compare b c).swap := Std.OrientedOrd.eq_swap
    rw [hsame, hswap] at hab ⊢
    cases hsecond : compare b c <;> simp_all

/-- Lexicographic orders go on from item to item if their parts do; the later part only
has to where the earlier one does not tell the items apart. -/
theorem andThen {first second whole first' second' whole' : Ordering}
    (hchained : Chained first second whole)
    (hnext : first = .eq → second = .eq → Chained first' second' whole') :
    Chained (first.then first') (second.then second') (whole.then whole') := by
  obtain ⟨hle, heq⟩ := hchained
  cases first <;> cases second <;> cases whole <;> simp_all
  all_goals first | exact hnext | (constructor <;> simp_all)

end Chained

namespace Attribute

mutual

/-- To compare two attributes the other way round gives the other answer. -/
theorem compare_swap : (a b : Attribute) → (a.compare b).swap = b.compare a
  | .flag .., .flag .. => Std.OrientedOrd.eq_swap.symm
  | .text .., .text .. => by
      rw [compare, compare, Ordering.swap_then, ← Std.OrientedOrd.eq_swap,
        ← Std.OrientedOrd.eq_swap]
  | .int .., .int .. => by
      rw [compare, compare, Ordering.swap_then, ← Std.OrientedOrd.eq_swap,
        ← Std.OrientedOrd.eq_swap]
  | .bool .., .bool .. => by
      rw [compare, compare, Ordering.swap_then, ← Std.OrientedOrd.eq_swap,
        ← Std.OrientedOrd.eq_swap]
  | .structured _ fields, .structured _ fields' => by
      rw [compare, compare, Ordering.swap_then, ← Std.OrientedOrd.eq_swap,
        compareFields_swap fields fields']
  | .flag .., .text .. | .flag .., .int .. | .flag .., .bool .. | .flag .., .structured .. => rfl
  | .text .., .flag .. | .text .., .int .. | .text .., .bool .. | .text .., .structured .. => rfl
  | .int .., .flag .. | .int .., .text .. | .int .., .bool .. | .int .., .structured .. => rfl
  | .bool .., .flag .. | .bool .., .text .. | .bool .., .int .. | .bool .., .structured .. => rfl
  | .structured .., .flag .. | .structured .., .text .. | .structured .., .int ..
  | .structured .., .bool .. => rfl

theorem compareFields_swap : (fields others : List (String × Attribute)) →
    (compareFields fields others).swap = compareFields others fields
  | [], [] | [], _ :: _ | _ :: _, [] => rfl
  | (_, value) :: rest, (_, value') :: rest' => by
      rw [compareFields, compareFields, Ordering.swap_then, Ordering.swap_then,
        ← Std.OrientedOrd.eq_swap, compare_swap value value', compareFields_swap rest rest']

end

theorem compare_self (value : Attribute) : value.compare value = .eq := by
  have hswap := compare_swap value value
  cases hself : value.compare value <;> simp_all

mutual

/-- Only an attribute itself compares as equal to it. -/
theorem eq_of_compare : {a b : Attribute} → a.compare b = .eq → a = b
  | .flag .., .flag .., heq => by
      rw [Std.LawfulEqOrd.eq_of_compare heq]
  | .text .., .text .., heq => by
      obtain ⟨hkey, hvalue⟩ := Ordering.then_eq_eq.mp heq
      rw [Std.LawfulEqOrd.eq_of_compare hkey, Std.LawfulEqOrd.eq_of_compare hvalue]
  | .int .., .int .., heq => by
      obtain ⟨hkey, hvalue⟩ := Ordering.then_eq_eq.mp heq
      rw [Std.LawfulEqOrd.eq_of_compare hkey, Std.LawfulEqOrd.eq_of_compare hvalue]
  | .bool .., .bool .., heq => by
      obtain ⟨hkey, hvalue⟩ := Ordering.then_eq_eq.mp heq
      rw [Std.LawfulEqOrd.eq_of_compare hkey, Std.LawfulEqOrd.eq_of_compare hvalue]
  | .structured _ _, .structured _ _, heq => by
      rw [compare] at heq
      obtain ⟨hkind, hfields⟩ := Ordering.then_eq_eq.mp heq
      rw [Std.LawfulEqOrd.eq_of_compare hkind, eq_of_compareFields hfields]

theorem eq_of_compareFields : {fields others : List (String × Attribute)} →
    compareFields fields others = .eq → fields = others
  | [], [], _ => rfl
  | (_, _) :: _, (_, _) :: _, heq => by
      rw [compareFields] at heq
      obtain ⟨hfirst, hrest⟩ := Ordering.then_eq_eq.mp heq
      obtain ⟨hname, hvalue⟩ := Ordering.then_eq_eq.mp hfirst
      rw [Std.LawfulEqOrd.eq_of_compare hname, eq_of_compare hvalue, eq_of_compareFields hrest]

end

theorem compare_eq_then (a b : Attribute) :
    a.compare b = (Ord.compare a.rank b.rank).then (a.compare b) := by
  cases a <;> cases b <;> rfl

mutual

/-- The order of attributes goes on from attribute to attribute. -/
theorem compare_chained (a b c : Attribute) :
    Chained (a.compare b) (b.compare c) (a.compare c) := by
  rw [compare_eq_then a b, compare_eq_then b c, compare_eq_then a c]
  refine (Chained.of_compare a.rank b.rank c.rank).andThen fun hab hbc => ?_
  -- What is left are attributes of one form.
  cases a <;> cases b <;> cases hab <;> cases c <;> cases hbc
  case flag => exact .of_compare _ _ _
  case text => exact (Chained.of_compare _ _ _).andThen fun _ _ => .of_compare _ _ _
  case int => exact (Chained.of_compare _ _ _).andThen fun _ _ => .of_compare _ _ _
  case bool => exact (Chained.of_compare _ _ _).andThen fun _ _ => .of_compare _ _ _
  case structured =>
      simp only [compare]
      exact (Chained.of_compare _ _ _).andThen fun _ _ => compareFields_chained _ _ _

theorem compareFields_chained (a b c : List (String × Attribute)) :
    Chained (compareFields a b) (compareFields b c) (compareFields a c) := by
  cases a with
  | nil => cases b <;> cases c <;> constructor <;> simp [compareFields]
  | cons first rest =>
      cases b with
      | nil => cases c <;> constructor <;> simp [compareFields]
      | cons second rest' =>
          cases c with
          | nil => constructor <;> simp [compareFields]
          | cons third rest'' =>
              simp only [compareFields]
              refine Chained.andThen ?_ fun _ _ => compareFields_chained rest rest' rest''
              exact (Chained.of_compare _ _ _).andThen fun _ _ =>
                compare_chained first.2 second.2 third.2

end

theorem compare_lt_trans {a b c : Attribute} (hab : a.compare b = .lt) (hbc : b.compare c = .lt) :
    a.compare c = .lt := by
  obtain ⟨hle, heq⟩ := compare_chained a b c
  rw [hab, hbc] at hle heq
  cases hac : a.compare c <;> simp_all

/-- The fields of every record in the attribute are in ascending order of their names. -/
inductive Ascending : Attribute → Prop where
  | flag (name : String) : Ascending (.flag name)
  | text (key value : String) : Ascending (.text key value)
  | int (key : String) (value : Int64) : Ascending (.int key value)
  | bool (key : String) (value : Bool) : Ascending (.bool key value)
  | structured (kind : String) {fields : List (String × Attribute)}
      (names : (Keyed.keys fields).Pairwise (· < ·))
      (values : ∀ entry ∈ fields, entry.2.Ascending) : Ascending (.structured kind fields)

theorem ascending_structured_iff {kind : String} {fields : List (String × Attribute)} :
    (structured kind fields).Ascending ↔ (Keyed.keys fields).Pairwise (· < ·) ∧
      ∀ entry ∈ fields, entry.2.Ascending := by
  constructor
  · rintro (_ | _ | _ | _ | ⟨_, hnames, hvalues⟩)
    exact ⟨hnames, hvalues⟩
  · rintro ⟨hnames, hvalues⟩
    exact .structured kind hnames hvalues

mutual

/-- Whether the fields of every record are in ascending order. -/
def decideAscending : (value : Attribute) → Decidable value.Ascending
  | .flag name => isTrue (.flag name)
  | .text key value => isTrue (.text key value)
  | .int key value => isTrue (.int key value)
  | .bool key value => isTrue (.bool key value)
  | .structured _ fields =>
      match decideAscendingFields fields with
      | isTrue hvalues => decidable_of_iff ((Keyed.keys fields).Pairwise (· < ·))
          ⟨fun hnames => .structured _ hnames hvalues,
            fun hvalue => (ascending_structured_iff.mp hvalue).1⟩
      | isFalse hvalues => isFalse fun hvalue => hvalues (ascending_structured_iff.mp hvalue).2

def decideAscendingFields : (fields : List (String × Attribute)) →
    Decidable (∀ entry ∈ fields, entry.2.Ascending)
  | [] => isTrue nofun
  | (_, value) :: rest =>
      match decideAscending value, decideAscendingFields rest with
      | isTrue hvalue, isTrue hrest => isTrue (List.forall_mem_cons.mpr ⟨hvalue, hrest⟩)
      | isFalse hvalue, _ => isFalse fun hall => hvalue (List.forall_mem_cons.mp hall).1
      | _, isFalse hrest => isFalse fun hall => hrest (List.forall_mem_cons.mp hall).2

end

instance (value : Attribute) : Decidable value.Ascending := decideAscending value

end Attribute

namespace AttributeSet

/-- The values are in ascending order, and so is everything in them. -/
def Ascending (set : AttributeSet) : Prop :=
  (set.values.Pairwise fun a b => a.compare b = .lt) ∧ ∀ value ∈ set.values, value.Ascending

instance (set : AttributeSet) : Decidable set.Ascending :=
  inferInstanceAs (Decidable (_ ∧ _))

/-- A value after all others comes last. -/
theorem place_last {value : Attribute} {values : List Attribute}
    (hlast : ∀ other ∈ values, other.compare value = .lt) :
    place value values = values ++ [value] := by
  induction values with
  | nil => rfl
  | cons other rest ih =>
      obtain ⟨hfirst, hrest⟩ := List.forall_mem_cons.mp hlast
      have hafter : value.compare other = .gt := by
        rw [← Attribute.compare_swap, hfirst]
        rfl
      rw [place, hafter]
      exact congrArg _ (ih hrest)

/-- An ascending set is made of its values. -/
theorem Ascending.ofList_values {set : AttributeSet} (hset : set.Ascending) :
    ofList set.values = set := by
  obtain ⟨values⟩ := set
  suffices hfold : ∀ done : List Attribute,
      (done ++ values).Pairwise (fun a b => a.compare b = .lt) →
        extend ⟨done⟩ values = ⟨done ++ values⟩ from hfold [] hset.1
  clear hset
  induction values with
  | nil => simp [extend]
  | cons value rest ih =>
      intro done hpairwise
      have hlast : ∀ other ∈ done, other.compare value = .lt := fun other hother =>
        (List.pairwise_append.mp hpairwise).2.2 other hother _ List.mem_cons_self
      have hnext : including ⟨done⟩ value = ⟨done ++ [value]⟩ := by
        rw [including, insert, place_last hlast]
      have hrest := ih (done ++ [value]) (by simpa using hpairwise)
      rw [extend] at hrest ⊢
      rw [List.foldl_cons, hnext, hrest]
      simp

/-! ## Putting in and taking out -/

theorem mem_place {value other : Attribute} {values : List Attribute} :
    other ∈ place value values ↔ other = value ∨ other ∈ values := by
  induction values with
  | nil => simp [place]
  | cons first rest ih =>
      rw [place]
      split
      next => exact List.mem_cons
      next hsame => simp [Attribute.eq_of_compare hsame]
      next => rw [List.mem_cons, ih, List.mem_cons, or_left_comm]

/-- A value before all others comes first. -/
theorem place_first {value : Attribute} {values : List Attribute}
    (hfirst : ∀ other ∈ values, value.compare other = .lt) :
    place value values = value :: values := by
  cases values with
  | nil => rfl
  | cons other rest => rw [place, hfirst other List.mem_cons_self]

theorem place_place (value : Attribute) (values : List Attribute) :
    place value (place value values) = place value values := by
  induction values with
  | nil => rw [place, place, Attribute.compare_self]
  | cons other rest ih =>
      cases hother : value.compare other <;> simp [place, hother, Attribute.compare_self, ih]

theorem place_pairwise (value : Attribute) {values : List Attribute}
    (hvalues : values.Pairwise fun a b => a.compare b = .lt) :
    (place value values).Pairwise fun a b => a.compare b = .lt := by
  induction values with
  | nil => exact List.pairwise_singleton _ _
  | cons first rest ih =>
      obtain ⟨hfirst, hrest⟩ := List.pairwise_cons.mp hvalues
      rw [place]
      split
      next hbefore =>
        refine List.pairwise_cons.mpr ⟨List.forall_mem_cons.mpr ⟨hbefore, ?_⟩, hvalues⟩
        exact fun other hother => Attribute.compare_lt_trans hbefore (hfirst other hother)
      next => exact hvalues
      next hafter =>
        refine List.pairwise_cons.mpr ⟨fun other hother => ?_, ih hrest⟩
        rcases mem_place.mp hother with rfl | hother
        · rw [← Attribute.compare_swap, hafter]
          rfl
        · exact hfirst other hother

/-- A value that is to stay may be put in before others are taken out or after. -/
theorem filter_place {p : Attribute → Bool} {value : Attribute} (hvalue : p value = true)
    {values : List Attribute} (hvalues : values.Pairwise fun a b => a.compare b = .lt) :
    (place value values).filter p = place value (values.filter p) := by
  induction values with
  | nil => rw [place, List.filter_singleton, hvalue, List.filter_nil, place]; rfl
  | cons first rest ih =>
      obtain ⟨hfirst, hrest⟩ := List.pairwise_cons.mp hvalues
      rw [place]
      split
      next hbefore =>
        have hall : ∀ other ∈ first :: rest, value.compare other = .lt :=
          List.forall_mem_cons.mpr ⟨hbefore, fun other hother =>
            Attribute.compare_lt_trans hbefore (hfirst other hother)⟩
        rw [List.filter_cons_of_pos hvalue, place_first fun other hother =>
          hall other (List.mem_filter.mp hother).1]
      next hsame =>
        obtain rfl := Attribute.eq_of_compare hsame
        rw [List.filter_cons_of_pos hvalue, place, hsame]
      next hafter =>
        rw [List.filter_cons, List.filter_cons, ih hrest]
        split
        · rw [place, hafter]
        · rfl

/-- To add a value once more changes nothing. -/
theorem including_including (set : AttributeSet) (value : Attribute) :
    (set.including value).including value = set.including value :=
  congrArg mk (place_place value set.values)

theorem removeKey_removeKey (set : AttributeSet) (key : String) :
    ((set.removeKey key).2.removeKey key).2 = (set.removeKey key).2 := by
  simp [removeKey, List.filter_filter]

theorem Ascending.including {set : AttributeSet} (hset : set.Ascending) {value : Attribute}
    (hvalue : value.Ascending) : (set.including value).Ascending :=
  ⟨place_pairwise value hset.1, fun other hother =>
    (mem_place.mp hother).elim (fun heq => heq ▸ hvalue) (hset.2 other)⟩

theorem Ascending.removeKey {set : AttributeSet} (hset : set.Ascending) (key : String) :
    (set.removeKey key).2.Ascending :=
  ⟨hset.1.filter _, fun other hother => hset.2 other (List.mem_filter.mp hother).1⟩

/-- Whether a value of another key is put in before or after a key is taken out makes no
difference. -/
theorem Ascending.removeKey_including {set : AttributeSet} (hset : set.Ascending)
    {value : Attribute} {key : String} (hkey : value.key ≠ key) :
    ((set.including value).removeKey key).2 = ((set.removeKey key).2).including value :=
  congrArg mk (filter_place (by simpa using hkey) hset.1)

end AttributeSet

end TreePass
