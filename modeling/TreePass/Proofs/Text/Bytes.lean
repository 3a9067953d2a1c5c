import Mathlib.Data.String.Basic

/-!
# Texts in the order of their bytes

Texts compare by code points. Written in UTF-8 they compare the same way byte by byte: of
two characters the one with the greater code point has the greater bytes, from the first
byte in which they differ, and what follows them plays no part.
-/

namespace TreePass.Text

/-- The bytes of a text in UTF-8. -/
def bytes (text : String) : List UInt8 :=
  text.toUTF8.data.toList

theorem bytes_eq_flatMap (text : String) :
    bytes text = text.toList.flatMap String.utf8EncodeChar := by
  rw [bytes, String.toUTF8, ← String.utf8Encode_toList, List.utf8Encode,
    List.toList_data_toByteArray]

/-! ## Digits -/

theorem digits_lt {m n : Nat} (hlt : m < n) :
    m / 64 < n / 64 ∨ m / 64 = n / 64 ∧ m % 64 < n % 64 := by
  omega

/-- Numbers of four digits, of which the first one is smaller than the others may be,
compare digit by digit. -/
theorem four_digits_lt {m n : Nat} (hlt : m < n) (hmax : n < 2097152) :
    m / 262144 % 8 < n / 262144 % 8 ∨
      m / 262144 % 8 = n / 262144 % 8 ∧ (m / 4096 % 64 < n / 4096 % 64 ∨
        m / 4096 % 64 = n / 4096 % 64 ∧ (m / 64 % 64 < n / 64 % 64 ∨
          m / 64 % 64 = n / 64 % 64 ∧ m % 64 < n % 64)) := by
  rcases digits_lt hlt with hlt | ⟨heq, hlast⟩
  · rcases digits_lt hlt with hlt | ⟨heq, hlast⟩
    · rcases digits_lt hlt with hlt | ⟨heq, hlast⟩ <;> omega
    · omega
  · omega

/-! ## Characters -/

theorem code_lt (c : Char) : c.val.toNat < 2097152 := by
  rcases c.valid with hlow | ⟨-, hhigh⟩
  · exact Nat.lt_trans hlow (by decide)
  · exact Nat.lt_trans hhigh (by decide)

/-- The bytes of a smaller character come first, whatever follows. -/
theorem encode_append_lt {c d : Char} (hlt : c < d) (rest rest' : List UInt8) :
    String.utf8EncodeChar c ++ rest < String.utf8EncodeChar d ++ rest' := by
  have hcode : c.val.toNat < d.val.toNat := hlt
  have hmax := code_lt d
  have hbyte (code : Nat) (hcode : code < 256) : (UInt8.ofNat code).toNat = code :=
    Nat.mod_eq_of_lt hcode
  simp only [String.utf8EncodeChar]
  generalize c.val.toNat = m, d.val.toNat = n at hcode hmax
  by_cases hlong : 65535 < m
  · -- Both have four bytes, which are the digits.
    have hdigits := four_digits_lt hcode hmax
    iterate 6 rw [if_neg (by omega)]
    simp (disch := omega) only [List.cons_append, List.nil_append, List.cons_lt_cons_iff,
      UInt8.lt_iff_toNat_lt, ← UInt8.toNat_inj, hbyte]
    simp only [Nat.add_lt_add_iff_right, Nat.add_right_cancel_iff]
    rcases hdigits with hlt | ⟨hfirst, hlt | ⟨hsecond, hlt | ⟨hthird, hlt⟩⟩⟩
    · exact .inl hlt
    · exact .inr ⟨hfirst, .inl hlt⟩
    · exact .inr ⟨hfirst, .inr ⟨hsecond, .inl hlt⟩⟩
    · exact .inr ⟨hfirst, .inr ⟨hsecond, .inr ⟨hthird, .inl hlt⟩⟩⟩
  · split_ifs <;>
      simp (disch := omega) only [List.cons_append, List.nil_append, List.cons_lt_cons_iff,
        UInt8.lt_iff_toNat_lt, ← UInt8.toNat_inj, hbyte] <;>
      omega

/-! ## Texts -/

theorem flatMap_encode_lt {cs ds : List Char} (hlt : cs < ds) :
    cs.flatMap String.utf8EncodeChar < ds.flatMap String.utf8EncodeChar := by
  induction hlt with
  | @nil d ds =>
      rw [List.flatMap_cons]
      obtain ⟨byte, more, hencode⟩ := List.exists_cons_of_ne_nil (@String.utf8EncodeChar_ne_nil d)
      rw [hencode]
      exact .nil
  | rel hlt =>
      rw [List.flatMap_cons, List.flatMap_cons]
      exact encode_append_lt hlt _ _
  | cons _ ih =>
      rw [List.flatMap_cons, List.flatMap_cons]
      exact List.append_left_lt ih

/-- Texts compare as their bytes do. -/
theorem lt_iff_bytes_lt {text other : String} : text < other ↔ bytes text < bytes other := by
  have hkeeps {text other : String} (hlt : text < other) : bytes text < bytes other := by
    rw [bytes_eq_flatMap, bytes_eq_flatMap]
    exact flatMap_encode_lt (String.lt_iff_toList_lt.mp hlt)
  refine ⟨hkeeps, fun hbytes => ?_⟩
  rcases lt_trichotomy text other with hlt | rfl | hgt
  · exact hlt
  · exact absurd hbytes (List.lt_irrefl _)
  · exact absurd hbytes (List.lt_asymm (hkeeps hgt))

end TreePass.Text
