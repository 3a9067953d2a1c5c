import TreePass.Codec.Decode
import TreePass.Proofs.Answer
import TreePass.Proofs.Codec.RoundTrip
import TreePass.Proofs.Path

/-!
# Paths as texts and as lists

The text of a path is read back exactly if it shows where each name ends: no name is
empty, and none has a separator in it. A text is refused exactly if it is empty or has
an empty name at one of its ends or between two separators; any other text is the
text of the path that is read. As a list of names every path can be written, and every
list but the empty one is that of a path.
-/

namespace TreePass.Path

/-- A name that stands in a text so that one can see where it ends. -/
def Shown (name : String) : Prop :=
  name ≠ "" ∧ separator ∉ name.toList

/-- The text starts or ends with a separator, or has two of them side by side. -/
def Gapped (text : List Char) : Prop :=
  [separator] <+: text ∨ [separator] <:+ text ∨ [separator, separator] <:+: text

instance : DecidablePred Shown := fun name => inferInstanceAs (Decidable (name ≠ "" ∧ _))

instance : DecidablePred Gapped := fun text =>
  inferInstanceAs (Decidable (_ <+: text ∨ _ <:+ text ∨ _ <:+: text))

/-! ## Pieces -/

theorem pieces_separator (rest : List Char) :
    pieces (separator :: rest) = ([], (pieces rest).1 :: (pieces rest).2) := by
  simp [pieces]

theorem pieces_cons {c : Char} (hc : c ≠ separator) (rest : List Char) :
    pieces (c :: rest) = (c :: (pieces rest).1, (pieces rest).2) := by
  simp [pieces, hc]

theorem pieces_eq_splitOn (text : List Char) :
    (pieces text).1 :: (pieces text).2 = text.splitOn separator := by
  induction text with
  | nil => rfl
  | cons c rest ih =>
      rw [List.splitOn_cons_eq_if_modifyHead, ← ih]
      by_cases hc : c = separator
      · subst hc
        simp [pieces_separator]
      · simp [pieces_cons hc, hc]

theorem fst_pieces_eq_nil_iff (text : List Char) :
    (pieces text).1 = [] ↔ text = [] ∨ [separator] <+: text := by
  cases text with
  | nil => simp [pieces]
  | cons c rest =>
      by_cases hc : c = separator
      · subst hc
        simp [pieces_separator]
      · simp [pieces_cons hc, Ne.symm hc]

theorem nil_mem_snd_pieces_iff (text : List Char) :
    [] ∈ (pieces text).2 ↔ [separator] <:+ text ∨ [separator, separator] <:+: text := by
  induction text with
  | nil => simp [pieces]
  | cons c rest ih =>
      rw [List.suffix_cons_iff, List.infix_cons_iff, List.cons_prefix_cons]
      by_cases hc : c = separator
      · subst hc
        have hfirst := fst_pieces_eq_nil_iff rest
        simp only [pieces_separator, List.mem_cons]
        rw [eq_comm, hfirst, ih]
        simp only [List.cons.injEq, true_and, eq_comm]
        tauto
      · simp [pieces_cons hc, ih, Ne.symm hc]

/-- Some piece of a text is empty exactly if the text is empty or has a gap. -/
theorem any_isEmpty_pieces_iff (text : List Char) :
    ((pieces text).1 :: (pieces text).2).any List.isEmpty = true ↔ text = [] ∨ Gapped text := by
  rw [List.any_eq_true]
  simp only [List.isEmpty_iff, exists_eq_right, List.mem_cons]
  rw [eq_comm, fst_pieces_eq_nil_iff, nil_mem_snd_pieces_iff, Gapped, or_assoc]

/-- No piece has a separator in it. -/
theorem separator_notMem_pieces (text : List Char) :
    ∀ piece ∈ (pieces text).1 :: (pieces text).2, separator ∉ piece := by
  induction text with
  | nil => simp [pieces]
  | cons c rest ih =>
      obtain ⟨hfirst, hothers⟩ := List.forall_mem_cons.mp ih
      by_cases hc : c = separator
      · subst hc
        rw [pieces_separator]
        exact List.forall_mem_cons.mpr ⟨List.not_mem_nil, ih⟩
      · rw [pieces_cons hc]
        refine List.forall_mem_cons.mpr ⟨fun hmem => ?_, hothers⟩
        rcases List.mem_cons.mp hmem with heq | hmem
        · exact hc heq.symm
        · exact hfirst hmem

/-! ## Texts of paths -/

theorem foldl_text_eq_append (text root : String) (rest : List String) :
    rest.foldl (fun text name => text ++ separator.toString ++ name) (text ++ root) =
      text ++ rest.foldl (fun text name => text ++ separator.toString ++ name) root := by
  induction rest generalizing root with
  | nil => rfl
  | cons name rest ih =>
      rw [List.foldl_cons, List.foldl_cons, ← ih, String.append_assoc, String.append_assoc,
        String.append_assoc]

/-- The text of a path is its names with a separator between any two of them. -/
theorem text_eq_intercalate (path : Path) :
    path.text = separator.toString.intercalate path.segments := by
  obtain ⟨root, rest⟩ := path
  rw [text, segments]
  induction rest generalizing root with
  | nil => exact String.intercalate_singleton.symm
  | cons name rest ih =>
      rw [List.foldl_cons, foldl_text_eq_append, ih, String.intercalate_cons_cons]

theorem toList_text (path : Path) :
    path.text.toList = [separator].intercalate (path.segments.map String.toList) := by
  rw [text_eq_intercalate, String.toList_intercalate]
  rfl

/-- Cutting the text of a path gives its names back if all of them are shown. -/
theorem pieces_text {path : Path} (hshown : ∀ name ∈ path.segments, Shown name) :
    pieces path.text.toList = (path.root.toList, path.rest.map String.toList) := by
  have hnames : ∀ piece ∈ path.segments.map String.toList, separator ∉ piece := by
    intro piece hpiece
    obtain ⟨name, hname, rfl⟩ := List.mem_map.mp hpiece
    exact (hshown name hname).2
  have hpieces := pieces_eq_splitOn path.text.toList
  rw [toList_text, List.splitOn_intercalate separator hnames (by simp [segments])] at hpieces
  obtain ⟨hfirst, hothers⟩ := List.cons.inj hpieces
  rw [toList_text]
  exact Prod.ext hfirst hothers

/-- A text is read as the path of its pieces unless one of them is empty. -/
theorem parse_of_not_gapped {input : String} (hne : input ≠ "") (hgaps : ¬ Gapped input.toList) :
    parse input = .ok ⟨String.ofList (pieces input.toList).1,
      (pieces input.toList).2.map String.ofList⟩ := by
  have hpieces :
      ¬ ((pieces input.toList).1 :: (pieces input.toList).2).any List.isEmpty = true := by
    rw [any_isEmpty_pieces_iff, String.toList_eq_nil_iff]
    exact not_or.mpr ⟨hne, hgaps⟩
  have hempty : ¬ input.isEmpty = true := by simpa using hne
  simp only [parse, if_neg hempty, if_neg hpieces]

theorem parse_of_gapped {input : String} (hne : input ≠ "") (hgaps : Gapped input.toList) :
    parse input = .error (.emptySegment input) := by
  have hpieces : ((pieces input.toList).1 :: (pieces input.toList).2).any List.isEmpty = true :=
    (any_isEmpty_pieces_iff _).mpr (.inr hgaps)
  have hempty : ¬ input.isEmpty = true := by simpa using hne
  simp only [parse, if_neg hempty, if_pos hpieces]

theorem parse_empty : parse "" = .error .empty := rfl

/-- What is read of a text shows the text again. -/
theorem text_of_pieces (text : List Char) :
    (⟨String.ofList (pieces text).1, (pieces text).2.map String.ofList⟩ : Path).text =
      String.ofList text := by
  rw [← String.toList_inj, toList_text, segments, List.map_cons, List.map_map]
  have hback : String.toList ∘ String.ofList = id := funext fun piece => String.toList_ofList
  rw [hback, List.map_id, String.toList_ofList, String.toList_ofList, pieces_eq_splitOn,
    List.intercalate_splitOn]

/-- A text is read as a path exactly if it is the text of the path and shows its names. -/
theorem parse_eq_ok_iff {input : String} {path : Path} :
    parse input = .ok path ↔ path.text = input ∧ ∀ name ∈ path.segments, Shown name := by
  constructor
  · intro hparse
    by_cases hne : input = ""
    · rw [hne, parse_empty] at hparse
      cases hparse
    by_cases hgaps : Gapped input.toList
    · rw [parse_of_gapped hne hgaps] at hparse
      cases hparse
    rw [parse_of_not_gapped hne hgaps] at hparse
    cases hparse
    refine ⟨(text_of_pieces _).trans String.ofList_toList, fun name hname => ?_⟩
    change name ∈ ((pieces input.toList).1 :: (pieces input.toList).2).map String.ofList at hname
    obtain ⟨piece, hpiece, rfl⟩ := List.mem_map.mp hname
    refine ⟨fun hnil => ?_, ?_⟩
    · obtain rfl : piece = [] := by simpa using hnil
      have hany := List.any_eq_true.mpr ⟨[], hpiece, List.isEmpty_nil⟩
      rcases (any_isEmpty_pieces_iff _).mp hany with hnil | hgapped
      · exact hne (String.toList_eq_nil_iff.mp hnil)
      · exact hgaps hgapped
    · rw [String.toList_ofList]
      exact separator_notMem_pieces _ piece hpiece
  · rintro ⟨rfl, hshown⟩
    have hpieces := pieces_text hshown
    have hgaps : ¬ (path.text.toList = [] ∨ Gapped path.text.toList) := by
      rw [← any_isEmpty_pieces_iff, hpieces]
      change ¬ (path.segments.map String.toList).any List.isEmpty = true
      simpa using fun hmem => (hshown "" hmem).1 rfl
    obtain ⟨hne, hgaps⟩ := not_or.mp hgaps
    rw [parse_of_not_gapped (mt String.toList_eq_nil_iff.mpr hne) hgaps, hpieces]
    simp [List.map_map, Function.comp_def]

/-! ## Lists of names -/

theorem ofSegments_eq_ok_iff {names : List String} {path : Path} :
    ofSegments names = .ok path ↔ path.segments = names := by
  cases names with
  | nil => simp [ofSegments, segments]
  | cons root rest =>
      constructor
      · rintro ⟨⟩
        rfl
      · intro hnames
        rw [← hnames]
        rfl

theorem exists_segments_eq_iff {names : List String} :
    (∃ path : Path, path.segments = names) ↔ names ≠ [] := by
  cases names with
  | nil => simp [segments]
  | cons root rest => simpa using ⟨⟨root, rest⟩, rfl⟩

/-- A written list of names is read as the path of the names. -/
theorem ofJson_ofTexts_eq_some_iff {levels : Nat} {names : List String} {path : Path} :
    ofJson (levels + 1) (.ofTexts names) = some path ↔ path.segments = names := by
  have htexts : (names.map Json.ofText).mapM Json.text? = some (names.map id) :=
    mapM_map_eq_some fun _ _ => rfl
  rw [Json.ofTexts, ofJson, htexts, List.map_id, ← ofSegments_eq_ok_iff]
  cases names <;> simp [ofSegments, Except.toOption]

/-! ## Both forms -/

/-- The empty text is refused as empty, a text with a gap as one that has an empty name,
and every other text is read as a path that shows it again and all of whose names are
shown. The text of a path is read as the path exactly if all names of the path are
shown, so that two such paths have different texts. A list of names, plain or written,
is read exactly if it is not empty, and gives itself back. -/
theorem read_exactly :
    (∀ input, parse input = .error .empty ↔ input = "") ∧
      (∀ input other, parse input = .error (.emptySegment other) ↔
        other = input ∧ input ≠ "" ∧ Gapped input.toList) ∧
      (∀ input, input ≠ "" → ¬ Gapped input.toList → ∃ path, parse input = .ok path ∧
        path.text = input ∧ ∀ name ∈ path.segments, Shown name) ∧
      (∀ path : Path, parse path.text = .ok path ↔ ∀ name ∈ path.segments, Shown name) ∧
      (∀ path other : Path, (∀ name ∈ path.segments, Shown name) →
        (∀ name ∈ other.segments, Shown name) → path.text = other.text → path = other) ∧
      ∀ names : List String,
        (((∃ path, ofSegments names = .ok path) ↔ names ≠ []) ∧
          ∀ path, ofSegments names = .ok path → path.segments = names) ∧
        ∀ levels, ((∃ path, ofJson (levels + 1) (.ofTexts names) = some path) ↔ names ≠ []) ∧
          ∀ path, ofJson (levels + 1) (.ofTexts names) = some path →
            path.toJson = .ofTexts names := by
  have hcases (input : String) : input = "" ∨ input ≠ "" ∧ Gapped input.toList ∨
      input ≠ "" ∧ ¬ Gapped input.toList := by tauto
  refine ⟨fun input => ?_, fun input other => ?_, fun input hne hgaps => ?_, fun path => ?_,
    fun path other hpath hother htext => ?_, fun names => ⟨⟨?_, ?_⟩, fun levels => ⟨?_, ?_⟩⟩⟩
  · rcases hcases input with rfl | ⟨hne, hgaps⟩ | ⟨hne, hgaps⟩
    · simp [parse_empty]
    · simp [parse_of_gapped hne hgaps, hne]
    · simp [parse_of_not_gapped hne hgaps, hne]
  · rcases hcases input with rfl | ⟨hne, hgaps⟩ | ⟨hne, hgaps⟩
    · simp [parse_empty]
    · simp [parse_of_gapped hne hgaps, hne, hgaps, eq_comm]
    · simp [parse_of_not_gapped hne hgaps, hgaps]
  · exact ⟨_, parse_of_not_gapped hne hgaps, parse_eq_ok_iff.mp (parse_of_not_gapped hne hgaps)⟩
  · rw [parse_eq_ok_iff, and_iff_right rfl]
  · have hread : parse path.text = .ok path := parse_eq_ok_iff.mpr ⟨rfl, hpath⟩
    have hread' : parse path.text = .ok other := parse_eq_ok_iff.mpr ⟨htext.symm, hother⟩
    rw [hread] at hread'
    exact Except.ok.inj hread'
  · simp only [ofSegments_eq_ok_iff, exists_segments_eq_iff]
  · exact fun path hpath => ofSegments_eq_ok_iff.mp hpath
  · simp only [ofJson_ofTexts_eq_some_iff, exists_segments_eq_iff]
  · intro path hpath
    rw [toJson, ofJson_ofTexts_eq_some_iff.mp hpath]

/-- Two paths of one text, of which only the second one shows its names. -/
theorem read_exactly_blurred :
    (¬ Shown "a.b" ∧ Shown "a" ∧ Shown "b" ∧ Shown "c" ∧ ¬ Gapped "a.b.c".toList ∧
        (⟨"a.b", ["c"]⟩ : Path).text = "a.b.c" ∧ (⟨"a", ["b", "c"]⟩ : Path).text = "a.b.c") ∧
      parse "a.b.c" ≠ .ok ⟨"a.b", ["c"]⟩ ∧ parse "a.b.c" = .ok ⟨"a", ["b", "c"]⟩ ∧
      (∃ path, parse "a.b.c" = .ok path ∧ path.text = "a.b.c" ∧
        ∀ name ∈ path.segments, Shown name) ∧
      (∀ path : Path, (∀ name ∈ path.segments, Shown name) → path.text = "a.b.c" →
        path = ⟨"a", ["b", "c"]⟩) ∧
      parse "a..b" = .error (.emptySegment "a..b") ∧
      ofJson 1 (.ofTexts ["", "a.b"]) = some ⟨"", ["a.b"]⟩ ∧
      (⟨"", ["a.b"]⟩ : Path).toJson = .ofTexts ["", "a.b"] := by
  obtain ⟨-, hgapped, hread, hback, hinj, hnames⟩ := read_exactly
  have hblurred : (⟨"a.b", ["c"]⟩ : Path).text = "a.b.c" := by decide
  have htext : (⟨"a", ["b", "c"]⟩ : Path).text = "a.b.c" := by decide
  have hclear : ∀ name ∈ (⟨"a", ["b", "c"]⟩ : Path).segments, Shown name := by decide
  have hfused : ¬ Shown "a.b" := by decide
  have hgaps : ¬ Gapped "a.b.c".toList := by decide
  have hlist : ofJson 1 (.ofTexts ["", "a.b"]) = some ⟨"", ["a.b"]⟩ := rfl
  refine ⟨⟨hfused, by decide, by decide, by decide, hgaps, hblurred, htext⟩, ?_, ?_,
    hread _ (by decide) hgaps, ?_, ?_, hlist, ((hnames _).2 0).2 _ hlist⟩
  · intro hparse
    exact hfused ((hback ⟨"a.b", ["c"]⟩).mp (hblurred.symm ▸ hparse) _ List.mem_cons_self)
  · exact htext ▸ (hback ⟨"a", ["b", "c"]⟩).mpr hclear
  · exact fun path hpath heq => hinj _ _ hpath hclear (heq.trans htext.symm)
  · exact (hgapped _ _).mpr ⟨rfl, by decide, by decide⟩

end TreePass.Path
