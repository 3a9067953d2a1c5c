import Mathlib.Data.List.Forall2
import Mathlib.Data.List.Nodup
import Mathlib.Data.List.Perm.Subperm
import TreePass.Keyed

/-!
# Laws of insertion-ordered maps

A map is its list of entries, so the laws are about lists. Storing under a new
key appends, a look-up among distinct keys finds the entry that is there, and a
map that is made by storing never holds a key twice.
-/

namespace TreePass.Keyed

variable {κ α : Type}

@[simp] theorem keys_nil : keys ([] : List (κ × α)) = [] := rfl

@[simp] theorem keys_cons (entry : κ × α) (rest : List (κ × α)) :
    keys (entry :: rest) = entry.1 :: keys rest := rfl

@[simp] theorem keys_append (entries others : List (κ × α)) :
    keys (entries ++ others) = keys entries ++ keys others :=
  List.map_append

@[simp] theorem values_nil : values ([] : List (κ × α)) = [] := rfl

@[simp] theorem values_cons (entry : κ × α) (rest : List (κ × α)) :
    values (entry :: rest) = entry.2 :: values rest := rfl

theorem mem_keys_of_mem {key : κ} {value : α} {entries : List (κ × α)}
    (hmem : (key, value) ∈ entries) : key ∈ keys entries :=
  List.mem_map_of_mem (f := Prod.fst) hmem

/-- The entries under a key are the one that is there, where no key occurs twice. -/
theorem filter_key_eq [DecidableEq κ] {entry : κ × α} {entries : List (κ × α)}
    (hdistinct : Distinct entries) (hmem : entry ∈ entries) :
    (entries.filter fun other => other.1 == entry.1) = [entry] := by
  induction entries with
  | nil => cases hmem
  | cons first rest ih =>
      obtain ⟨hnew, hrest⟩ := List.nodup_cons.mp hdistinct
      rcases List.mem_cons.mp hmem with rfl | hlater
      · have hothers : ∀ other ∈ rest, ¬ (other.1 == entry.1) = true := by
          intro other hother heq
          exact hnew (beq_iff_eq.mp heq ▸ List.mem_map_of_mem hother)
        rw [List.filter_cons_of_pos (by simp), List.filter_eq_nil_iff.mpr hothers]
      · have hne : ¬ (first.1 == entry.1) = true := by
          intro heq
          exact hnew (beq_iff_eq.mp heq ▸ List.mem_map_of_mem hlater)
        rw [List.filter_cons, if_neg hne, ih hrest hlater]

/-- Items that are each put under a label have their labels for keys. -/
@[simp] theorem keys_map_label (label : α → κ) (items : List α) :
    keys (items.map fun item => (label item, item)) = items.map label := by
  rw [keys, List.map_map]
  rfl

@[simp] theorem values_map_label (label : α → κ) (items : List α) :
    values (items.map fun item => (label item, item)) = items := by
  rw [values, List.map_map]
  exact List.map_id items

/-- Where every value is replaced, the keys stay. -/
@[simp] theorem keys_map_value {β : Type} (f : κ × α → β) (entries : List (κ × α)) :
    keys (entries.map fun entry => (entry.1, f entry)) = keys entries := by
  rw [keys, List.map_map]
  rfl

theorem distinct_map_value {β : Type} (f : κ × α → β) {entries : List (κ × α)}
    (hentries : Distinct entries) : Distinct (entries.map fun entry => (entry.1, f entry)) := by
  rwa [Distinct, keys_map_value]

/-- Where keys are labels of the values, the values make up the map. -/
theorem map_values_label {label : α → κ} {entries : List (κ × α)}
    (hlabel : ∀ entry ∈ entries, entry.1 = label entry.2) :
    (values entries).map (fun value => (label value, value)) = entries := by
  rw [values, List.map_map]
  refine (List.map_congr_left fun entry hentry => ?_).trans (List.map_id entries)
  exact Prod.ext (hlabel entry hentry).symm rfl

/-- Where keys are labels of the values, the labels are the keys. -/
theorem map_label_values {label : α → κ} {entries : List (κ × α)}
    (hlabel : ∀ entry ∈ entries, entry.1 = label entry.2) :
    (values entries).map label = keys entries := by
  rw [values, List.map_map]
  exact List.map_congr_left fun entry hentry => (hlabel entry hentry).symm

theorem distinct_filter (keep : κ × α → Bool) {entries : List (κ × α)}
    (hdistinct : Distinct entries) : Distinct (entries.filter keep) :=
  List.Nodup.sublist (List.Sublist.map _ List.filter_sublist) hdistinct

variable [DecidableEq κ]

theorem mem_of_get? {key : κ} {value : α} {entries : List (κ × α)}
    (hfound : get? key entries = some value) : (key, value) ∈ entries := by
  induction entries with
  | nil => simp at hfound
  | cons entry rest ih =>
      obtain ⟨k, v⟩ := entry
      rw [get?_cons] at hfound
      split at hfound
      next hkey =>
        obtain rfl : v = value := by simpa using hfound
        exact hkey ▸ List.mem_cons_self
      next => exact List.mem_cons_of_mem _ (ih hfound)

/-- Among distinct keys, a look-up finds every entry. -/
theorem get?_eq_some_of_mem {key : κ} {value : α} {entries : List (κ × α)}
    (hdistinct : Distinct entries) (hmem : (key, value) ∈ entries) :
    get? key entries = some value := by
  induction entries with
  | nil => simp at hmem
  | cons entry rest ih =>
      obtain ⟨k, v⟩ := entry
      obtain ⟨hnew, hrest⟩ := List.nodup_cons.mp hdistinct
      rw [get?_cons]
      rcases List.mem_cons.mp hmem with heq | htail
      · cases heq
        simp
      · have hne : k ≠ key := fun heq => hnew (heq ▸ mem_keys_of_mem htail)
        rw [if_neg hne]
        exact ih hrest htail

theorem contains_eq_false_iff {key : κ} {entries : List (κ × α)} :
    contains key entries = false ↔ key ∉ keys entries := by
  rw [← contains_iff_mem_keys, Bool.not_eq_true]

theorem get?_map_value {β : Type} (f : κ × α → β) (key : κ)
    (entries : List (κ × α)) :
    get? key (entries.map fun entry => (entry.1, f entry)) =
      (get? key entries).map fun value => f (key, value) := by
  induction entries with
  | nil => rfl
  | cons entry rest ih =>
      rw [List.map_cons, get?_cons, get?_cons, ih]
      split
      next hkey => rw [← hkey]; rfl
      next => rfl

theorem get?_eq_none_iff {key : κ} {entries : List (κ × α)} :
    get? key entries = none ↔ key ∉ keys entries := by
  rw [← contains_eq_false_iff, contains, Option.isSome_eq_false_iff, Option.isNone_iff_eq_none]

theorem exists_get?_of_mem_keys {key : κ} {entries : List (κ × α)}
    (hmem : key ∈ keys entries) : ∃ value, get? key entries = some value :=
  Option.isSome_iff_exists.mp ((contains_iff_mem_keys key entries).mpr hmem)

theorem get?_append_of_mem {key : κ} {entries : List (κ × α)} (others : List (κ × α))
    (hmem : key ∈ keys entries) : get? key (entries ++ others) = get? key entries := by
  induction entries with
  | nil => simp at hmem
  | cons entry rest ih =>
      obtain ⟨k, v⟩ := entry
      rw [List.cons_append, get?_cons, get?_cons]
      split
      next => rfl
      next hkey => exact ih (by simpa [Ne.symm hkey] using hmem)

theorem get?_append_of_notMem {key : κ} {entries : List (κ × α)} (others : List (κ × α))
    (hnew : key ∉ keys entries) : get? key (entries ++ others) = get? key others := by
  induction entries with
  | nil => rfl
  | cons entry rest ih =>
      obtain ⟨k, v⟩ := entry
      simp only [keys_cons, List.mem_cons, not_or] at hnew
      rw [List.cons_append, get?_cons, if_neg (Ne.symm hnew.1), ih hnew.2]

theorem put_of_notMem {key : κ} {entries : List (κ × α)} (value : α)
    (hnew : key ∉ keys entries) : put key value entries = entries ++ [(key, value)] := by
  induction entries with
  | nil => rfl
  | cons entry rest ih =>
      obtain ⟨k, v⟩ := entry
      simp only [keys_cons, List.mem_cons, not_or] at hnew
      rw [put, if_neg (Ne.symm hnew.1), ih hnew.2, List.cons_append]

theorem mem_put {key : κ} {value : α} {entry : κ × α} {entries : List (κ × α)}
    (hmem : entry ∈ put key value entries) : entry = (key, value) ∨ entry ∈ entries := by
  induction entries with
  | nil => simpa [put] using hmem
  | cons first rest ih =>
      obtain ⟨k, v⟩ := first
      rw [put] at hmem
      split at hmem
      next hkey =>
        subst hkey
        rcases List.mem_cons.mp hmem with heq | htail
        · exact .inl heq
        · exact .inr (List.mem_cons_of_mem _ htail)
      next =>
        rcases List.mem_cons.mp hmem with heq | htail
        · exact .inr (heq ▸ List.mem_cons_self)
        · exact (ih htail).imp_right (List.mem_cons_of_mem _)

theorem mem_keys_put {key other : κ} {value : α} {entries : List (κ × α)} :
    other ∈ keys (put key value entries) ↔ other = key ∨ other ∈ keys entries := by
  induction entries with
  | nil => simp [put]
  | cons first rest ih =>
      obtain ⟨k, v⟩ := first
      rw [put]
      split
      next hkey => simp [hkey]
      next => rw [keys_cons, keys_cons, List.mem_cons, List.mem_cons, ih, or_left_comm]

/-- To store a value once more changes nothing. -/
theorem put_put (key : κ) (value : α) (entries : List (κ × α)) :
    put key value (put key value entries) = put key value entries := by
  induction entries with
  | nil => simp [put]
  | cons first rest ih =>
      obtain ⟨k, v⟩ := first
      rw [put]
      split
      next hkey => rw [put, if_pos hkey]
      next hkey => rw [put, if_neg hkey, ih]

theorem distinct_put {key : κ} {value : α} {entries : List (κ × α)}
    (hdistinct : Distinct entries) : Distinct (put key value entries) := by
  induction entries with
  | nil => simp [put, Distinct]
  | cons first rest ih =>
      obtain ⟨k, v⟩ := first
      obtain ⟨hnew, hrest⟩ := List.nodup_cons.mp hdistinct
      rw [put]
      split
      next => exact hdistinct
      next hkey =>
        exact List.nodup_cons.mpr ⟨fun hmem => (mem_keys_put.mp hmem).elim hkey hnew, ih hrest⟩

@[simp] theorem keys_update (key : κ) (f : α → α) (entries : List (κ × α)) :
    keys (update key f entries) = keys entries := by
  induction entries with
  | nil => rfl
  | cons entry rest ih =>
      obtain ⟨k, v⟩ := entry
      rw [update]
      split
      · rfl
      · rw [keys_cons, keys_cons, ih]

/-- A change of one value is not seen by what does not read the change. -/
theorem map_update {β : Type} (g : α → β) (key : κ) {f : α → α}
    (hf : ∀ value, g (f value) = g value) (entries : List (κ × α)) :
    ((update key f entries).map fun entry => g entry.2) = entries.map fun entry => g entry.2 := by
  induction entries with
  | nil => rfl
  | cons entry rest ih =>
      obtain ⟨k, v⟩ := entry
      rw [update]
      split
      · rw [List.map_cons, List.map_cons, hf]
      · rw [List.map_cons, List.map_cons, ih]

theorem get?_update_self (key : κ) (f : α → α) (entries : List (κ × α)) :
    get? key (update key f entries) = (get? key entries).map f := by
  induction entries with
  | nil => rfl
  | cons entry rest ih =>
      obtain ⟨k, v⟩ := entry
      by_cases hkey : k = key
      · simp [update, get?_cons, hkey]
      · simp [update, get?_cons, hkey, ih]

theorem get?_update_of_ne {key other : κ} (hne : key ≠ other) (f : α → α)
    (entries : List (κ × α)) : get? other (update key f entries) = get? other entries := by
  induction entries with
  | nil => rfl
  | cons entry rest ih =>
      obtain ⟨k, v⟩ := entry
      rw [update]
      split
      next hkey => rw [get?_cons, get?_cons, if_neg (hkey ▸ hne), if_neg (hkey ▸ hne)]
      next => rw [get?_cons, get?_cons, ih]

theorem distinct_update (key : κ) (f : α → α) {entries : List (κ × α)}
    (hdistinct : Distinct entries) : Distinct (update key f entries) := by
  rwa [Distinct, keys_update]

/-- Keeping the entries of some keys keeps the answers for these keys. -/
theorem get?_filter (keep : κ → Bool) (key : κ) (entries : List (κ × α)) :
    get? key (entries.filter fun entry => keep entry.1) =
      if keep key then get? key entries else none := by
  induction entries with
  | nil => simp
  | cons entry rest ih =>
      obtain ⟨k, v⟩ := entry
      rw [List.filter_cons]
      by_cases hkey : k = key
      · subst hkey
        cases hkeep : keep k with
        | false => simpa [hkeep] using ih
        | true => simp [get?_cons]
      · cases hkeep : keep k with
        | false => simpa [get?_cons, hkey] using ih
        | true => simpa [get?_cons, hkey] using ih

theorem get?_erase (key other : κ) (entries : List (κ × α)) :
    get? other (erase key entries) = if key = other then none else get? other entries := by
  have hfilter := get?_filter (fun k => decide (k ≠ key)) other entries
  rw [erase, hfilter]
  by_cases hkey : key = other
  · simp [hkey]
  · simp [hkey, Ne.symm hkey]

theorem distinct_erase (key : κ) {entries : List (κ × α)} (hdistinct : Distinct entries) :
    Distinct (erase key entries) :=
  distinct_filter _ hdistinct

/-- Maps that give the same answers hold the same entries, in whatever order. -/
theorem perm_iff_get? {entries others : List (κ × α)} (hentries : Distinct entries)
    (hothers : Distinct others) :
    entries.Perm others ↔ ∀ key, get? key entries = get? key others := by
  have hmem {map : List (κ × α)} (hmap : Distinct map) (key : κ) (value : α) :
      (key, value) ∈ map ↔ get? key map = some value :=
    ⟨get?_eq_some_of_mem hmap, mem_of_get?⟩
  have hperm := List.perm_ext_iff_of_nodup (List.Nodup.of_map Prod.fst hentries)
    (List.Nodup.of_map Prod.fst hothers)
  constructor
  · intro hsame key
    refine Option.ext fun value => ?_
    rw [← hmem hentries, ← hmem hothers]
    exact hsame.mem_iff
  · intro hsame
    refine hperm.mpr ?_
    rintro ⟨key, value⟩
    rw [hmem hentries, hmem hothers, hsame key]

/-- Maps in whose answers the same is read hold entries of which the same is read. -/
theorem map_value_perm {β γ : Type} {f : α → γ} {g : β → γ} {entries : List (κ × α)}
    {others : List (κ × β)} (hentries : Distinct entries) (hothers : Distinct others)
    (hsame : ∀ key, (get? key entries).map f = (get? key others).map g) :
    (entries.map fun entry => (entry.1, f entry.2)).Perm
      (others.map fun other => (other.1, g other.2)) := by
  apply (perm_iff_get? (distinct_map_value _ hentries) (distinct_map_value _ hothers)).mpr
  intro key
  rw [get?_map_value, get?_map_value]
  exact hsame key

/-- Equality of maps is reordering of their entries. -/
theorem agree_iff_perm [DecidableEq α] {entries others : List (κ × α)}
    (hentries : Distinct entries) (hothers : Distinct others) :
    agree (· == ·) entries others = true ↔ entries.Perm others := by
  rw [agree, Bool.and_eq_true, beq_iff_eq, List.all_eq_true]
  constructor
  · rintro ⟨hlength, hagree⟩
    have hsubset : entries ⊆ others := by
      rintro ⟨key, value⟩ hentry
      have hfound := hagree _ hentry
      dsimp only at hfound
      split at hfound
      next other hother =>
        rw [eq_of_beq hfound]
        exact mem_of_get? hother
      next => cases hfound
    exact (List.subperm_of_subset (List.Nodup.of_map Prod.fst hentries) hsubset).perm_of_length_le
      (Nat.le_of_eq hlength.symm)
  · intro hperm
    refine ⟨hperm.length_eq, fun entry hentry => ?_⟩
    rw [get?_eq_some_of_mem hothers (hperm.mem_iff.mp hentry)]
    exact beq_self_eq_true entry.2

/-- Maps of the same keys give related answers if they do under every key of both. -/
theorem rel_of_keys {β : Type} {R : α → β → Prop} {entries : List (κ × α)}
    {others : List (κ × β)} (hkeys : ∀ key, key ∈ keys entries ↔ key ∈ keys others)
    (himp : ∀ key, ∀ value ∈ get? key entries, ∀ other ∈ get? key others, R value other)
    (key : κ) : Option.Rel R (get? key entries) (get? key others) := by
  have hkey := hkeys key
  have hvalues := himp key
  rw [← not_iff_not, ← get?_eq_none_iff, ← get?_eq_none_iff] at hkey
  generalize get? key entries = found, get? key others = found' at hkey hvalues
  cases found with
  | none =>
      rw [hkey.mp rfl]
      exact .none
  | some value =>
      cases found' with
      | none => cases hkey.mpr rfl
      | some other => exact .some (hvalues value rfl other rfl)

/-- Maps that give related answers hold related entries, which stand in one order
after the first of them is reordered. -/
theorem exists_perm_forall₂ {β : Type} {R : α → β → Prop} {entries : List (κ × α)}
    {others : List (κ × β)} (hentries : Distinct entries) (hothers : Distinct others)
    (hrel : ∀ key, Option.Rel R (get? key entries) (get? key others)) :
    ∃ middle, entries.Perm middle ∧
      List.Forall₂ (fun entry other => entry.1 = other.1 ∧ R entry.2 other.2) middle others := by
  induction others generalizing entries with
  | nil =>
      have hnil : entries = [] := by
        cases entries with
        | nil => rfl
        | cons entry rest =>
            have hentry := hrel entry.1
            rw [get?_cons, if_pos rfl, get?_nil] at hentry
            cases hentry
      exact ⟨[], hnil ▸ .nil, .nil⟩
  | cons other rest ih =>
      obtain ⟨key, value⟩ := other
      obtain ⟨hnew, hrest⟩ := List.nodup_cons.mp hothers
      have hkey := hrel key
      rw [get?_cons, if_pos rfl] at hkey
      cases hfound : get? key entries with
      | none =>
          rw [hfound] at hkey
          cases hkey
      | some found =>
          rw [hfound] at hkey
          cases hkey with
          | some hvalue =>
              have herased : ∀ other, Option.Rel R (get? other (erase key entries))
                  (get? other rest) := by
                intro other
                rw [get?_erase]
                by_cases hother : key = other
                · rw [if_pos hother, ← hother, get?_eq_none_iff.mpr hnew]
                  exact .none
                · have hsame := hrel other
                  rw [get?_cons, if_neg hother] at hsame
                  rwa [if_neg hother]
              obtain ⟨middle, hperm, hmiddle⟩ := ih (distinct_erase key hentries) hrest herased
              refine ⟨(key, found) :: middle, ?_, .cons ⟨rfl, hvalue⟩ hmiddle⟩
              refine List.Perm.trans ?_ (hperm.cons (key, found))
              have hgone : key ∉ keys (erase key entries) := by
                rw [← get?_eq_none_iff, get?_erase, if_pos rfl]
              have hdistinct : Distinct ((key, found) :: erase key entries) :=
                List.nodup_cons.mpr ⟨hgone, distinct_erase key hentries⟩
              refine (perm_iff_get? hentries hdistinct).mpr fun other => ?_
              rw [get?_cons, get?_erase]
              split
              next hother => rw [← hother, hfound]
              next => rfl

/-- Maps that give related values hold the same in all, if related values do. -/
theorem flatMap_perm {β γ : Type} {R : α → β → Prop} {f : α → List γ} {g : β → List γ}
    {entries : List (κ × α)} {others : List (κ × β)} (hentries : Distinct entries)
    (hothers : Distinct others) (hrel : ∀ key, Option.Rel R (get? key entries) (get? key others))
    (hsame : ∀ entry ∈ entries, ∀ other ∈ others, R entry.2 other.2 →
      (f entry.2).Perm (g other.2)) :
    ((values entries).flatMap f).Perm ((values others).flatMap g) := by
  obtain ⟨middle, hperm, hmiddle⟩ := exists_perm_forall₂ hentries hothers hrel
  replace hsame : ∀ entry ∈ middle, ∀ other ∈ others, R entry.2 other.2 →
      (f entry.2).Perm (g other.2) := fun entry hentry => hsame entry (hperm.mem_iff.mpr hentry)
  refine ((hperm.map Prod.snd).flatMap_right f).trans ?_
  clear hperm hrel hentries hothers
  induction hmiddle with
  | nil => exact .nil
  | cons hentry _ ih =>
      rw [List.map_cons, values_cons, List.flatMap_cons, List.flatMap_cons]
      refine (hsame _ List.mem_cons_self _ List.mem_cons_self hentry.2).append (ih fun entry h => ?_)
      exact fun other h' => hsame entry (List.mem_cons_of_mem _ h) other (List.mem_cons_of_mem _ h')

/-- Changes that agree on what is found under the key are one change. -/
theorem update_congr {key : κ} {f g : α → α} {entries : List (κ × α)}
    (hfound : ∀ value ∈ get? key entries, f value = g value) :
    update key f entries = update key g entries := by
  induction entries with
  | nil => rfl
  | cons entry rest ih =>
      obtain ⟨k, v⟩ := entry
      rw [get?_cons] at hfound
      by_cases hkey : k = key
      · rw [if_pos hkey] at hfound
        simp [update, hkey, hfound v rfl]
      · rw [if_neg hkey] at hfound
        simp [update, hkey, ih hfound]

theorem update_update (key : κ) (f g : α → α) (entries : List (κ × α)) :
    update key g (update key f entries) = update key (g ∘ f) entries := by
  induction entries with
  | nil => rfl
  | cons entry rest ih =>
      obtain ⟨k, v⟩ := entry
      by_cases hkey : k = key
      · simp [update, hkey]
      · simp [update, hkey, ih]

/-- Among distinct keys, a change of one value passes all other entries by. -/
theorem update_eq_map (key : κ) (f : α → α) {entries : List (κ × α)}
    (hdistinct : Distinct entries) :
    update key f entries =
      entries.map fun entry => (entry.1, if entry.1 = key then f entry.2 else entry.2) := by
  induction entries with
  | nil => rfl
  | cons entry rest ih =>
      obtain ⟨k, v⟩ := entry
      obtain ⟨hnew, hrest⟩ := List.nodup_cons.mp hdistinct
      rw [update, List.map_cons]
      by_cases hkey : k = key
      · rw [if_pos hkey, if_pos hkey]
        congr 1
        refine ((List.map_congr_left fun other hother => ?_).trans (List.map_id rest)).symm
        have hne : other.1 ≠ key := by
          rintro rfl
          exact hnew (hkey ▸ mem_keys_of_mem hother)
        rw [if_neg hne, id]
      · rw [if_neg hkey, if_neg hkey, ih hrest]

theorem update_id (key : κ) (entries : List (κ × α)) : update key id entries = entries := by
  induction entries with
  | nil => rfl
  | cons entry rest ih =>
      obtain ⟨k, v⟩ := entry
      by_cases hkey : k = key
      · simp [update, hkey]
      · simp [update, hkey, ih]

/-- The first entry under a key is the one that changes. -/
theorem update_append_of_mem {key : κ} (f : α → α) {entries : List (κ × α)}
    (others : List (κ × α)) (hmem : key ∈ keys entries) :
    update key f (entries ++ others) = update key f entries ++ others := by
  induction entries with
  | nil => simp at hmem
  | cons entry rest ih =>
      obtain ⟨k, v⟩ := entry
      by_cases hkey : k = key
      · simp [update, hkey]
      · have hrest : key ∈ keys rest := by
          simpa [Ne.symm hkey] using hmem
        simp [update, hkey, ih hrest]

theorem update_append_of_notMem {key : κ} (f : α → α) {entries : List (κ × α)}
    (others : List (κ × α)) (hnew : key ∉ keys entries) :
    update key f (entries ++ others) = entries ++ update key f others := by
  induction entries with
  | nil => rfl
  | cons entry rest ih =>
      obtain ⟨k, v⟩ := entry
      simp only [keys_cons, List.mem_cons, not_or] at hnew
      rw [List.cons_append, update, if_neg (Ne.symm hnew.1), ih hnew.2, List.cons_append]

/-- A changed map holds the entries that it held and perhaps one changed one. -/
theorem mem_update {key : κ} {f : α → α} {entry : κ × α} {entries : List (κ × α)}
    (hmem : entry ∈ update key f entries) :
    entry ∈ entries ∨ ∃ value, (key, value) ∈ entries ∧ entry = (key, f value) := by
  induction entries with
  | nil => simp [update] at hmem
  | cons first rest ih =>
      obtain ⟨k, v⟩ := first
      rw [update] at hmem
      split at hmem
      next hkey =>
        subst hkey
        rcases List.mem_cons.mp hmem with heq | htail
        · exact .inr ⟨v, List.mem_cons_self, heq⟩
        · exact .inl (List.mem_cons_of_mem _ htail)
      next =>
        rcases List.mem_cons.mp hmem with heq | htail
        · exact .inl (heq ▸ List.mem_cons_self)
        · rcases ih htail with hold | ⟨value, hvalue, heq⟩
          · exact .inl (List.mem_cons_of_mem _ hold)
          · exact .inr ⟨value, List.mem_cons_of_mem _ hvalue, heq⟩

/-- Storing the pairs one after the other into `done`. -/
theorem foldl_put_of_distinct (done pairs : List (κ × α))
    (hdistinct : Distinct (done ++ pairs)) :
    pairs.foldl (fun entries pair => put pair.1 pair.2 entries) done = done ++ pairs := by
  induction pairs generalizing done with
  | nil => simp
  | cons pair rest ih =>
      have hnew : pair.1 ∉ keys done := by
        intro hmem
        rw [Distinct, keys_append, keys_cons] at hdistinct
        exact (List.nodup_append.mp hdistinct).2.2 _ hmem _ List.mem_cons_self rfl
      rw [List.foldl_cons, put_of_notMem _ hnew, ih _ (by simpa using hdistinct)]
      simp

theorem ofList_of_distinct {pairs : List (κ × α)} (hdistinct : Distinct pairs) :
    ofList pairs = pairs :=
  foldl_put_of_distinct [] pairs (by simpa using hdistinct)

/-- A map that is made from pairs holds no key twice and nothing else than the
pairs. -/
theorem foldl_put_invariant (done pairs : List (κ × α)) (hdistinct : Distinct done) :
    Distinct (pairs.foldl (fun entries pair => put pair.1 pair.2 entries) done) ∧
      ∀ entry ∈ pairs.foldl (fun entries pair => put pair.1 pair.2 entries) done,
        entry ∈ done ∨ entry ∈ pairs := by
  induction pairs generalizing done with
  | nil => exact ⟨hdistinct, fun entry hmem => .inl hmem⟩
  | cons pair rest ih =>
      rw [List.foldl_cons]
      obtain ⟨hrest, hentries⟩ := ih (put pair.1 pair.2 done) (distinct_put hdistinct)
      refine ⟨hrest, fun entry hmem => ?_⟩
      rcases hentries entry hmem with hput | htail
      · rcases mem_put hput with rfl | hdone
        · exact .inr List.mem_cons_self
        · exact .inl hdone
      · exact .inr (List.mem_cons_of_mem _ htail)

theorem distinct_ofList (pairs : List (κ × α)) : Distinct (ofList pairs) :=
  (foldl_put_invariant [] pairs List.nodup_nil).1

theorem mem_of_mem_ofList {entry : κ × α} {pairs : List (κ × α)}
    (hmem : entry ∈ ofList pairs) : entry ∈ pairs := by
  simpa using (foldl_put_invariant [] pairs List.nodup_nil).2 entry hmem

end TreePass.Keyed
