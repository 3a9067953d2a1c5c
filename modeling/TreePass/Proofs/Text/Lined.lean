import Mathlib.Tactic.Basic
import TreePass.Text.Lines
import TreePass.Text.Quoted

/-!
# Texts of whole lines

In a text of whole lines each of them ends in a line feed, the last one too. Such texts can be
put one after the other, and then their lines add up and are indented separately. What is put
into a line must not end it; a quoted text never does, whatever is quoted.
-/

namespace TreePass.Text

variable {text other content : String} {texts : List String}

/-! ## Within a line -/

/-- A text in which no line ends. -/
def Unbroken (text : String) : Prop := '\n' ∉ text.toList

instance : DecidablePred Unbroken :=
  fun text => inferInstanceAs (Decidable ('\n' ∉ text.toList))

@[simp] theorem unbroken_append_iff :
    Unbroken (text ++ other) ↔ Unbroken text ∧ Unbroken other := by
  simp [Unbroken]

@[simp] theorem unbroken_join_iff :
    Unbroken (String.join texts) ↔ ∀ text ∈ texts, Unbroken text := by
  simp [Unbroken, String.toList_join]

theorem unbroken_intercalate {separator : String} (hseparator : Unbroken separator)
    (htexts : ∀ text ∈ texts, Unbroken text) : Unbroken (separator.intercalate texts) := by
  induction texts with
  | nil => simp [Unbroken]
  | cons text rest ih =>
      obtain ⟨htext, hrest⟩ := List.forall_mem_cons.mp htexts
      cases rest with
      | nil => simpa using htext
      | cons next rest =>
          rw [String.intercalate_cons_cons]
          simp [hseparator, htext, ih hrest]

theorem notMem_toDigits {base : Nat} (hbase : 1 < base) (n : Nat) :
    '\n' ∉ Nat.toDigits base n := by
  have hdigit (n : Nat) : '\n' ≠ Nat.digitChar n := (Nat.digitChar_ne '\n' (by decide)).symm
  induction n using Nat.strongRecOn with
  | ind n ih =>
      rw [Nat.toDigits_eq_if hbase]
      split
      · simp [hdigit]
      next hlarge =>
        have hsmaller : n / base < n := Nat.div_lt_self (by omega) hbase
        simp [hdigit, ih _ hsmaller]

theorem unbroken_repr (value : Int) : Unbroken value.repr := by
  have hnat (n : Nat) : Unbroken n.repr := by
    simp [Unbroken, notMem_toDigits]
  cases value with
  | ofNat n => exact hnat n
  | negSucc n => exact unbroken_append_iff.mpr ⟨by decide, hnat (n + 1)⟩

theorem unbroken_codeEscape (c : Char) : Unbroken (codeEscape c) := by
  simp [Unbroken, codeEscape, notMem_toDigits]

theorem unbroken_quotedChar (c : Char) : Unbroken (quotedChar c) := by
  unfold quotedChar
  split
  -- All other cases are escapes written out.
  case h_7 hfeed _ _ _ =>
    split
    · simpa [Unbroken] using Ne.symm hfeed
    · exact unbroken_codeEscape c
  all_goals decide

theorem unbroken_quoted (text : String) : Unbroken (quoted text) := by
  have hquote : Unbroken "\"" := by decide
  simp [quoted, hquote, unbroken_quotedChar]

/-! ## Whole lines -/

/-- A text that consists of so many lines, each with a line feed at its end. -/
inductive Spans : String → Nat → Prop
  | none : Spans "" 0
  | line {content rest : String} {count : Nat} (hcontent : Unbroken content)
      (hrest : Spans rest count) : Spans (content ++ "\n" ++ rest) (count + 1)

namespace Spans

variable {count more : Nat}

theorem single (hcontent : Unbroken content) : Spans (content ++ "\n") 1 := by
  simpa using line hcontent none

theorem append (htext : Spans text count) (hother : Spans other more) :
    Spans (text ++ other) (count + more) := by
  induction htext with
  | none => simpa using hother
  | line hcontent _ ih =>
      rw [String.append_assoc, Nat.add_right_comm]
      exact line hcontent ih

theorem join {α β : Type} {items : List α} {f : α → String} {rows : α → List β}
    (hitems : ∀ item ∈ items, Spans (f item) (rows item).length) :
    Spans (String.join (items.map f)) (items.flatMap rows).length := by
  induction items with
  | nil => exact none
  | cons item rest ih =>
      obtain ⟨hitem, hrest⟩ := List.forall_mem_cons.mp hitems
      simpa using hitem.append (ih hrest)

end Spans

/-! ## The lines of any text -/

theorem linesFrom_cons {c : Char} (hc : c ≠ '\n') (reversed rest : List Char) :
    linesFrom reversed (c :: rest) = linesFrom (c :: reversed) rest := by
  rw [linesFrom]
  exact hc

theorem linesFrom_append {line : List Char} (hline : '\n' ∉ line) (reversed rest : List Char) :
    linesFrom reversed (line ++ '\n' :: rest) =
      endedLine (line.reverse ++ reversed) :: linesFrom [] rest := by
  induction line generalizing reversed with
  | nil => rfl
  | cons c line ih =>
      obtain ⟨hc, hline⟩ := List.ne_and_not_mem_of_not_mem_cons hline
      rw [List.cons_append, linesFrom_cons (Ne.symm hc), ih hline]
      simp

/-- A text of whole lines has that many. -/
theorem Spans.length_lines {count : Nat} (htext : Spans text count) :
    (lines text).length = count := by
  induction htext with
  | none => rfl
  | @line content rest _ hcontent _ ih =>
      have hchars : (content ++ "\n" ++ rest).toList = content.toList ++ '\n' :: rest.toList := by
        simp
      rw [lines, hchars, linesFrom_append hcontent, List.length_cons]
      exact congrArg (· + 1) ih

theorem unbroken_endedLine {reversed : List Char} (hreversed : '\n' ∉ reversed) :
    Unbroken (endedLine reversed) := by
  unfold endedLine
  split
  · simpa [Unbroken] using hreversed
  · simpa [Unbroken] using hreversed

theorem unbroken_of_mem_linesFrom {reversed rest : List Char} (hreversed : '\n' ∉ reversed)
    (htext : text ∈ linesFrom reversed rest) : Unbroken text := by
  fun_induction linesFrom reversed rest with
  | case1 => simp at htext
  | case2 reversed =>
      obtain rfl := List.mem_singleton.mp htext
      simpa [Unbroken] using hreversed
  | case3 reversed rest ih =>
      rcases List.mem_cons.mp htext with rfl | htext
      · exact unbroken_endedLine hreversed
      · exact ih (by simp) htext
  | case4 reversed c rest hc ih =>
      exact ih (by simpa using ⟨Ne.symm hc, hreversed⟩) htext

theorem unbroken_of_mem_lines {line : String} (hline : line ∈ lines text) : Unbroken line :=
  unbroken_of_mem_linesFrom List.not_mem_nil hline

/-! ## Indentation -/

/-- Puts a margin wherever a line begins; `fresh` says whether one begins here. -/
def indentFrom (margin : List Char) (fresh : Bool) : List Char → List Char
  | [] => []
  | c :: rest => (if fresh then margin else []) ++ c :: indentFrom margin (c == '\n') rest

/-- The text with a margin before each of its lines. -/
def indented (margin text : String) : String :=
  String.ofList (indentFrom margin.toList true text.toList)

theorem indentFrom_append {line : List Char} (hline : '\n' ∉ line) (margin : List Char)
    (fresh : Bool) (rest : List Char) :
    indentFrom margin fresh (line ++ '\n' :: rest) =
      (if fresh then margin else []) ++ line ++ '\n' :: indentFrom margin true rest := by
  induction line generalizing fresh with
  | nil => simp [indentFrom]
  | cons c line ih =>
      obtain ⟨hc, hline⟩ := List.ne_and_not_mem_of_not_mem_cons hline
      have hbeq : (c == '\n') = false := by simpa using Ne.symm hc
      simp [indentFrom, hbeq, ih hline]

variable {margin : String}

@[simp] theorem indented_empty : indented margin "" = "" := rfl

theorem indented_line (hcontent : Unbroken content) (margin rest : String) :
    indented margin (content ++ "\n" ++ rest) =
      margin ++ (content ++ "\n" ++ indented margin rest) := by
  apply String.toList_inj.mp
  simp [indented, indentFrom_append hcontent]

theorem indented_append {count : Nat} (htext : Spans text count) (margin other : String) :
    indented margin (text ++ other) = indented margin text ++ indented margin other := by
  induction htext with
  | none => simp
  | line hcontent _ ih =>
      rw [String.append_assoc, indented_line hcontent, indented_line hcontent, ih]
      simp only [String.append_assoc]

theorem indented_join {α : Type} {items : List α} {f : α → String} {count : α → Nat}
    (hitems : ∀ item ∈ items, Spans (f item) (count item)) (margin : String) :
    indented margin (String.join (items.map f)) =
      String.join (items.map fun item => indented margin (f item)) := by
  induction items with
  | nil => simp
  | cons item rest ih =>
      obtain ⟨hitem, hrest⟩ := List.forall_mem_cons.mp hitems
      simp only [List.map_cons, String.join_cons, indented_append hitem, ih hrest]

end TreePass.Text
