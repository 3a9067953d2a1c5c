import TreePass.Proofs.Attribute.Order
import TreePass.Proofs.Sorted
import TreePass.Proofs.Text.Bytes

/-!
# Which attribute precedes which

Attributes are compared part by part, down to the fields of records within records, and
the first difference decides. What comes first by this rule is what `compare` puts first,
and the order it makes of attributes is total and strict: it is decided for any two of
them, whichever is asked first, it goes on from attribute to attribute, and only an
attribute itself stands at its place. The fields of a record are told in ascending order
of their names, however they were given.
-/

namespace TreePass.Attribute

open Text (bytes)

mutual

/-- The first attribute precedes the second one: its form comes first, or both are of one
form and the first part in which they differ comes first. -/
inductive Precedes : Attribute → Attribute → Prop where
  | form {a b : Attribute} (lower : a.rank < b.rank) : Precedes a b
  | flag {name name' : String} (lower : bytes name < bytes name') :
      Precedes (.flag name) (.flag name')
  | text {key key' value value' : String}
      (lower : bytes key < bytes key' ∨ key = key' ∧ bytes value < bytes value') :
      Precedes (.text key value) (.text key' value')
  | int {key key' : String} {value value' : Int64}
      (lower : bytes key < bytes key' ∨ key = key' ∧ value.toInt < value'.toInt) :
      Precedes (.int key value) (.int key' value')
  | bool {key key' : String} {value value' : Bool}
      (lower : bytes key < bytes key' ∨ key = key' ∧ value = false ∧ value' = true) :
      Precedes (.bool key value) (.bool key' value')
  | kind {kind kind' : String} {fields fields' : List (String × Attribute)}
      (lower : bytes kind < bytes kind') :
      Precedes (.structured kind fields) (.structured kind' fields')
  | fields {kind : String} {fields fields' : List (String × Attribute)}
      (lower : PrecedesFields fields fields') :
      Precedes (.structured kind fields) (.structured kind fields')

/-- The first fields precede the second ones: they end first, or the first field in which
they differ has the lower name, or the same name and the value that comes first. -/
inductive PrecedesFields : List (String × Attribute) → List (String × Attribute) → Prop where
  | ended (field : String × Attribute) (rest : List (String × Attribute)) :
      PrecedesFields [] (field :: rest)
  | name {name name' : String} {value value' : Attribute} {rest rest' : List (String × Attribute)}
      (lower : bytes name < bytes name') :
      PrecedesFields ((name, value) :: rest) ((name', value') :: rest')
  | value {name : String} {value value' : Attribute} {rest rest' : List (String × Attribute)}
      (lower : Precedes value value') :
      PrecedesFields ((name, value) :: rest) ((name, value') :: rest')
  | rest (field : String × Attribute) {rest rest' : List (String × Attribute)}
      (lower : PrecedesFields rest rest') : PrecedesFields (field :: rest) (field :: rest')

end

/-! ## The order of the parts -/

theorem compare_text_eq_lt_iff {text other : String} :
    Ord.compare text other = .lt ↔ bytes text < bytes other :=
  compare_lt_iff_lt.trans Text.lt_iff_bytes_lt

theorem compare_int_eq_lt_iff {value other : Int64} :
    Ord.compare value other = .lt ↔ value.toInt < other.toInt := by
  rw [← Int64.lt_iff_toInt_lt]
  exact compareOfLessAndEq_eq_lt

theorem compare_bool_eq_lt_iff {value other : Bool} :
    Ord.compare value other = .lt ↔ value = false ∧ other = true := by
  cases value <;> cases other <;> decide

/-- Of two parts the later one decides where the first one is the same. -/
theorem keyed_eq_lt_iff {key key' : String} {order : Ordering} :
    (Ord.compare key key').then order = .lt ↔ bytes key < bytes key' ∨ key = key' ∧ order = .lt := by
  rw [Ordering.then_eq_lt, compare_text_eq_lt_iff, compare_eq_iff_eq]

theorem compare_eq_lt_iff_of_form {a b : Attribute} (hform : a.rank ≠ b.rank) :
    a.compare b = .lt ↔ a.Precedes b := by
  have hrank : a.compare b = .lt ↔ a.rank < b.rank := by
    rw [compare_eq_then, Ordering.then_eq_lt, compare_lt_iff_lt, compare_eq_iff_eq]
    simp [hform]
  rw [hrank]
  constructor
  · exact .form
  · rintro (hlower | _ | _ | _ | _ | _ | _)
    · exact hlower
    all_goals exact absurd rfl hform

mutual

/-- What is put first is what precedes. -/
theorem compare_eq_lt_iff : (a b : Attribute) → (a.compare b = .lt ↔ a.Precedes b)
  | .flag .., .flag .. => by
      rw [compare, compare_text_eq_lt_iff]
      exact ⟨.flag, fun
        | .flag hlower => hlower
        | .form hlower => absurd hlower (Nat.lt_irrefl _)⟩
  | .text .., .text .. => by
      rw [compare, keyed_eq_lt_iff, compare_text_eq_lt_iff]
      exact ⟨.text, fun
        | .text hlower => hlower
        | .form hlower => absurd hlower (Nat.lt_irrefl _)⟩
  | .int .., .int .. => by
      rw [compare, keyed_eq_lt_iff, compare_int_eq_lt_iff]
      exact ⟨.int, fun
        | .int hlower => hlower
        | .form hlower => absurd hlower (Nat.lt_irrefl _)⟩
  | .bool .., .bool .. => by
      rw [compare, keyed_eq_lt_iff, compare_bool_eq_lt_iff]
      exact ⟨.bool, fun
        | .bool hlower => hlower
        | .form hlower => absurd hlower (Nat.lt_irrefl _)⟩
  | .structured _ fields, .structured _ fields' => by
      rw [compare, keyed_eq_lt_iff, compareFields_eq_lt_iff fields fields']
      constructor
      · rintro (hlower | ⟨rfl, hlower⟩)
        · exact .kind hlower
        · exact .fields hlower
      · intro hprecedes
        cases hprecedes with
        | form hlower => exact absurd hlower (Nat.lt_irrefl _)
        | kind hlower => exact .inl hlower
        | fields hlower => exact .inr ⟨rfl, hlower⟩
  | .flag .., .text .. | .flag .., .int .. | .flag .., .bool .. | .flag .., .structured .. =>
      compare_eq_lt_iff_of_form nofun
  | .text .., .flag .. | .text .., .int .. | .text .., .bool .. | .text .., .structured .. =>
      compare_eq_lt_iff_of_form nofun
  | .int .., .flag .. | .int .., .text .. | .int .., .bool .. | .int .., .structured .. =>
      compare_eq_lt_iff_of_form nofun
  | .bool .., .flag .. | .bool .., .text .. | .bool .., .int .. | .bool .., .structured .. =>
      compare_eq_lt_iff_of_form nofun
  | .structured .., .flag .. | .structured .., .text .. | .structured .., .int ..
  | .structured .., .bool .. =>
      compare_eq_lt_iff_of_form nofun

theorem compareFields_eq_lt_iff : (fields fields' : List (String × Attribute)) →
    (compareFields fields fields' = .lt ↔ PrecedesFields fields fields')
  | [], [] => ⟨nofun, nofun⟩
  | [], field :: rest => ⟨fun _ => .ended field rest, fun _ => rfl⟩
  | _ :: _, [] => ⟨nofun, nofun⟩
  | (name, value) :: rest, (name', value') :: rest' => by
      rw [compareFields, Ordering.then_eq_lt, keyed_eq_lt_iff, compare_eq_lt_iff value value',
        compareFields_eq_lt_iff rest rest', Ordering.then_eq_eq, compare_eq_iff_eq]
      constructor
      · rintro ((hlower | ⟨rfl, hlower⟩) | ⟨⟨rfl, hsame⟩, hlower⟩)
        · exact .name hlower
        · exact .value hlower
        · rw [eq_of_compare hsame]
          exact .rest _ hlower
      · intro hprecedes
        cases hprecedes with
        | name hlower => exact .inl (.inl hlower)
        | value hlower => exact .inl (.inr ⟨rfl, hlower⟩)
        | rest _ hlower => exact .inr ⟨⟨rfl, compare_self value⟩, hlower⟩

end

/-- The order of attributes is total and strict, at every depth. It answers `.eq` for an
attribute and itself alone, asked the other way round it answers the other way round, and
it goes on from attribute to attribute. What it puts first is what precedes, where the
fields of a record are those that it was given, the last one of each name, by the bytes of
their names. -/
theorem order_total :
    (∀ a b : Attribute, a.compare b = .eq ↔ a = b) ∧
      (∀ a b : Attribute, b.compare a = (a.compare b).swap) ∧
      (∀ a b c : Attribute, (a.compare b).isLE = true → (b.compare c).isLE = true →
        (a.compare c).isLE = true) ∧
      (∀ a b c : Attribute, a.compare b = .lt → b.compare c = .lt → a.compare c = .lt) ∧
      (∀ a b : Attribute, a.compare b = .lt ↔ a.Precedes b) ∧
      ∀ kind given, ∃ fields, record kind given = .structured kind fields ∧
        ((Keyed.keys fields).Pairwise fun name name' => bytes name < bytes name') ∧
        ∀ name, Keyed.get? name fields = Keyed.get? name given.reverse := by
  refine ⟨fun a b => ⟨eq_of_compare, ?same⟩, fun a b => (compare_swap a b).symm,
    fun a b c => (compare_chained a b c).isLE, fun _ _ _ => compare_lt_trans,
    compare_eq_lt_iff, fun kind given => ⟨Keyed.sorted given, rfl, ?names, ?values⟩⟩
  case same =>
    rintro rfl
    exact compare_self a
  case names =>
    exact (Keyed.pairwise_sorted given).imp Text.lt_iff_bytes_lt.mp
  case values =>
    exact Keyed.get?_sorted_reverse given

/-- A record of records: the deepest field is told by its name, which is the last one given. -/
def nest (name : String) : Attribute :=
  record "outer" [("b", .flag ""), ("a", .flag "z"),
    ("a", record "inner" [("y", .flag "y"), (name, .int "x" (-1))])]

/-- Deep inside, a name of three bytes comes before one of four, although a unit of sixteen
bits that it consists of is greater than those of the other. -/
theorem order_total_nested :
    (nest "\uffff").compare (nest "😀") = .lt ∧ (nest "😀").compare (nest "\uffff") = .gt ∧
      (nest "\uffff").Precedes (nest "😀") ∧
      (nest "\uffff").compare (.structured "outer" [("a", .flag "")]) = .gt ∧
      (Attribute.flag "z").compare (nest "\uffff") = .lt ∧
      (Attribute.flag "z").compare (nest "😀") = .lt := by
  obtain ⟨-, hswap, -, htrans, hprecedes, -⟩ := order_total
  have hnames : (nest "\uffff").compare (nest "😀") = .lt := by decide
  have hflag : (Attribute.flag "z").compare (nest "\uffff") = .lt := by decide
  refine ⟨hnames, ?_, (hprecedes _ _).mp hnames, by decide, hflag, htrans _ _ _ hflag hnames⟩
  rw [hswap, hnames]
  rfl

end TreePass.Attribute
