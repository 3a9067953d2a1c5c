import Mathlib.Data.List.Induction
import Mathlib.Data.String.Basic
import TreePass.Proofs.Keyed

/-!
# Sorted maps

To sort a map puts its entries in ascending order of their keys and leaves all its
answers as they are. Maps without repeated keys that hold the same entries, in whatever
order, therefore have one sorted form.
-/

namespace TreePass.Keyed

variable {α : Type}

theorem mem_keys_putSorted {key other : String} {value : α} {entries : List (String × α)} :
    other ∈ keys (putSorted key value entries) ↔ other = key ∨ other ∈ keys entries := by
  induction entries with
  | nil => simp [putSorted]
  | cons entry rest ih =>
      rw [putSorted]
      split
      next => simp
      next heq => simp [compare_eq_iff_eq.mp heq]
      next => simp [ih, or_left_comm]

/-- An ascending map stays ascending when a value is stored. -/
theorem pairwise_putSorted (key : String) (value : α) {entries : List (String × α)}
    (hentries : (keys entries).Pairwise (· < ·)) :
    (keys (putSorted key value entries)).Pairwise (· < ·) := by
  induction entries with
  | nil => simp [putSorted]
  | cons entry rest ih =>
      obtain ⟨hfirst, hrest⟩ := List.pairwise_cons.mp hentries
      rw [putSorted]
      split
      next hlt =>
        have hkey := compare_lt_iff_lt.mp hlt
        refine List.pairwise_cons.mpr ⟨?_, hentries⟩
        exact List.forall_mem_cons.mpr ⟨hkey, fun other hother => hkey.trans (hfirst other hother)⟩
      next heq =>
        rw [compare_eq_iff_eq.mp heq]
        exact hentries
      next hgt =>
        refine List.pairwise_cons.mpr ⟨?_, ih hrest⟩
        intro other hother
        rcases mem_keys_putSorted.mp hother with rfl | hold
        · exact compare_gt_iff_gt.mp hgt
        · exact hfirst other hold

theorem get?_putSorted (key other : String) (value : α) (entries : List (String × α)) :
    get? other (putSorted key value entries) =
      if key = other then some value else get? other entries := by
  induction entries with
  | nil => rfl
  | cons entry rest ih =>
      rw [putSorted]
      split
      next => rfl
      next heq =>
        rw [get?_cons, get?_cons, ← compare_eq_iff_eq.mp heq]
        split <;> rfl
      next hgt =>
        have hne : entry.1 ≠ key := (compare_gt_iff_gt.mp hgt).ne
        rw [get?_cons, get?_cons, ih]
        split
        next hother => rw [if_neg (hother ▸ hne.symm)]
        next => rfl

theorem pairwise_sorted (entries : List (String × α)) :
    (keys (sorted entries)).Pairwise (· < ·) := by
  suffices hfold : ∀ done : List (String × α), (keys done).Pairwise (· < ·) →
      (keys (entries.foldl (fun done entry => putSorted entry.1 entry.2 done) done)).Pairwise
        (· < ·) from hfold [] .nil
  induction entries with
  | nil => exact fun _ hdone => hdone
  | cons entry rest ih =>
      intro done hdone
      exact ih _ (pairwise_putSorted entry.1 entry.2 hdone)

theorem distinct_sorted (entries : List (String × α)) : Distinct (sorted entries) :=
  (pairwise_sorted entries).imp ne_of_lt

/-- Of the entries under one key the last one is kept. -/
theorem get?_sorted_reverse (entries : List (String × α)) (key : String) :
    get? key (sorted entries) = get? key entries.reverse := by
  induction entries using List.reverseRecOn with
  | nil => rfl
  | append_singleton entries entry ih =>
      rw [sorted, List.foldl_append, ← sorted, List.reverse_append, List.foldl_cons,
        List.foldl_nil, get?_putSorted, ih]
      rfl

/-- To sort a map changes none of its answers. -/
theorem get?_sorted {entries : List (String × α)} (hentries : Distinct entries) (key : String) :
    get? key (sorted entries) = get? key entries := by
  have hreverse : Distinct entries.reverse := by
    rw [Distinct, keys, List.map_reverse]
    exact List.nodup_reverse.mpr hentries
  rw [get?_sorted_reverse]
  exact (perm_iff_get? hreverse hentries).mp entries.reverse_perm key

theorem sorted_perm {entries : List (String × α)} (hentries : Distinct entries) :
    (sorted entries).Perm entries :=
  (perm_iff_get? (distinct_sorted entries) hentries).mpr (get?_sorted hentries)

/-- Of the entries of a map there is only one ascending list. -/
theorem eq_of_perm_of_pairwise {entries others : List (String × α)} (hperm : entries.Perm others)
    (hentries : (keys entries).Pairwise (· < ·)) (hothers : (keys others).Pairwise (· < ·)) :
    entries = others :=
  hperm.eq_of_pairwise (fun _ _ _ _ hlt hgt => absurd hlt (lt_asymm hgt))
    (List.pairwise_map.mp hentries) (List.pairwise_map.mp hothers)

/-- Ascending entries stay as they are when they are sorted. -/
theorem sorted_of_pairwise {entries : List (String × α)}
    (hentries : (keys entries).Pairwise (· < ·)) : sorted entries = entries :=
  eq_of_perm_of_pairwise (sorted_perm (hentries.imp ne_of_lt)) (pairwise_sorted entries) hentries

/-- Reordered entries have one sorted form. -/
theorem sorted_eq_of_perm {entries others : List (String × α)} (hentries : Distinct entries)
    (hperm : entries.Perm others) : sorted entries = sorted others := by
  have hothers : Distinct others := (hperm.map Prod.fst).nodup_iff.mp hentries
  exact eq_of_perm_of_pairwise
    ((sorted_perm hentries).trans (hperm.trans (sorted_perm hothers).symm))
    (pairwise_sorted entries) (pairwise_sorted others)

end TreePass.Keyed
