import BlockArchive.Proofs.Integrity
import Mathlib.Data.List.Sort

/-!
# Rows in order

A query that lists rows sorts them by a part that no two of them share, so it lists each of them
once and in strictly ascending order. What is listed in this way is told by which rows there are.

## Main statements

- `Table.mem_listed`: the rows that are listed
- `Table.pairwise_listed`: their order
- `Table.eq_of_ascending`: lists in ascending order with the same rows are the same
- `Table.find?_offer_self`: what is found once a row has been offered
- `Table.filter_entries_eq`: tables with the same rows of a kind
- `Table.Keyed.exists_added`: the rows that a batch adds where stored rows are left alone
-/

namespace BlockArchive.Table

variable {ρ κ : Type}

section Listed

variable [LE κ] [LT κ] [DecidableLE κ] [Std.IsLinearOrder κ] [Std.LawfulOrderLT κ]

omit [LT κ] [Std.IsLinearOrder κ] [Std.LawfulOrderLT κ] in
theorem mem_listed {t : Table ρ} {wanted : Entry ρ → Bool} {part : Entry ρ → κ} {entry : Entry ρ} :
    entry ∈ ((t.entries.filter wanted).mergeSort fun a b => part a ≤ part b) ↔
      entry ∈ t.entries ∧ wanted entry = true := by
  rw [List.mem_mergeSort, List.mem_filter]

/-- Rows of which no two share a part are listed in strictly ascending order of it. -/
theorem pairwise_listed (t : Table ρ) (wanted : Entry ρ → Bool) (part : Entry ρ → κ)
    (hpart : ∀ a ∈ t.entries, ∀ b ∈ t.entries, wanted a = true → wanted b = true →
      part a = part b → a = b) :
    ((t.entries.filter wanted).mergeSort fun a b => part a ≤ part b).Pairwise
      fun a b => part a < part b := by
  have hsorted : ((t.entries.filter wanted).mergeSort fun a b => part a ≤ part b).Pairwise
      fun a b => part a ≤ part b := by
    have h : ((t.entries.filter wanted).mergeSort fun a b => part a ≤ part b).Pairwise
        fun a b => decide (part a ≤ part b) = true := by
      apply List.pairwise_mergeSort
      · intro a b c hab hbc
        rw [decide_eq_true_eq] at hab hbc ⊢
        exact Std.le_trans hab hbc
      · intro a b
        simpa using Std.le_total
    simpa using h
  have hnodup : ((t.entries.filter wanted).mergeSort fun a b => part a ≤ part b).Nodup := by
    rw [(List.mergeSort_perm _ _).nodup_iff]
    exact (Store.nodup_ids t).of_map.filter _
  refine (hsorted.and hnodup).imp_of_mem fun {a b} ha hb h => Std.lt_of_le_of_ne h.1 fun he => ?_
  rw [mem_listed] at ha hb
  exact h.2 (hpart a ha.1 b hb.1 ha.2 hb.2 he)

omit [DecidableLE κ] [Std.IsLinearOrder κ] in
/-- Lists in strictly ascending order are the same if they have the same rows. -/
theorem eq_of_ascending {part : Entry ρ → κ} {l m : List (Entry ρ)}
    (hl : l.Pairwise fun a b => part a < part b) (hm : m.Pairwise fun a b => part a < part b)
    (h : ∀ entry, entry ∈ l ↔ entry ∈ m) : l = m := by
  have hirrefl : Std.Irrefl fun a b : Entry ρ => part a < part b := ⟨fun _ => Std.lt_irrefl⟩
  have hantisymm : Std.Antisymm fun a b : Entry ρ => part a < part b :=
    ⟨fun _ _ hab hba => absurd hba (Std.not_gt_of_lt hab)⟩
  exact hl.eq_of_mem_iff hm h

end Listed

theorem pairwise_entries (t : Table ρ) : t.entries.Pairwise fun a b => a.id < b.id := by
  rw [entries, List.pairwise_map]
  exact Std.ExtTreeMap.ordered_keys_toList.imp Int.compare_eq_lt.1

/-- Tables that have the same rows of a kind have them in the same order. -/
theorem filter_entries_eq {t u : Table ρ} {wanted : Entry ρ → Bool}
    (h : ∀ entry, wanted entry = true → (entry ∈ t.entries ↔ entry ∈ u.entries)) :
    t.entries.filter wanted = u.entries.filter wanted := by
  refine eq_of_ascending ((pairwise_entries t).filter _) ((pairwise_entries u).filter _)
    fun entry => ?_
  rw [List.mem_filter, List.mem_filter]
  exact and_congr_left (h entry)

/-! ## What is found under a key -/

variable [DecidableEq κ]

/-- What is stored under a key is the row with the least id that has it. -/
theorem find?_eq_some_iff {t : Table ρ} {key : ρ → κ} {k : κ} {entry : Entry ρ} :
    t.find? key k = some entry ↔
      entry ∈ t.entries ∧ key entry.row = k ∧
        ∀ other ∈ t.entries, key other.row = k → entry.id ≤ other.id := by
  have hleast : ∀ {found : Entry ρ}, t.find? key k = some found →
      ∀ other ∈ t.entries, key other.row = k → found.id ≤ other.id := by
    intro found hfound other hother hkey
    obtain ⟨_, before, after, hentries, hbefore⟩ := List.find?_eq_some_iff_append.1 hfound
    have hordered := pairwise_entries t
    rw [hentries] at hother hordered
    rcases List.mem_append.1 hother with hother | hother
    · have hnot := hbefore other hother
      simp [hkey] at hnot
    · have hafter := (List.pairwise_cons.1 (List.pairwise_append.1 hordered).2.1).1
      rcases List.mem_cons.1 hother with rfl | hother
      · exact Int.le_refl _
      · exact Int.le_of_lt (hafter other hother)
  constructor
  · intro hfind
    obtain ⟨hmem, hkey⟩ := mem_of_find? hfind
    exact ⟨hmem, hkey, hleast hfind⟩
  · rintro ⟨hmem, hkey, hle⟩
    cases hfind : t.find? key k with
    | none => exact absurd hkey (find?_eq_none.1 hfind entry hmem)
    | some found =>
      obtain ⟨hfound, hk⟩ := mem_of_find? hfind
      have hids := Int.le_antisymm (hleast hfind entry hmem hkey) (hle found hfound hk)
      rw [eq_of_mem_entries hfound hmem hids]

/-- A row that is offered is found under its key, whatever else the table holds. -/
theorem find?_offer_self (t : Table ρ) {key : ρ → κ} {refresh : ρ → ρ → ρ}
    (hkeep : KeepsKey key refresh) (row : ρ) :
    (t.offer key refresh row).2.find? key (key row) = some (t.offer key refresh row).1 := by
  rw [find?_eq_some_iff, Keyed.key_offer hkeep]
  refine ⟨mem_entries_offer.2 (Or.inl rfl), rfl, fun other hother hkey => ?_⟩
  rcases mem_entries_offer.1 hother with rfl | ⟨hother, _⟩
  · exact Int.le_refl _
  · cases hfind : t.find? key (key row) with
    | none => exact absurd hkey (find?_eq_none.1 hfind other hother)
    | some stored =>
      rw [offer_of_find? refresh hfind]
      exact (find?_eq_some_iff.1 hfind).2.2 other hother hkey

/-! ## Rows that are added -/

/-- A row whose key is stored changes nothing where stored rows are left alone. -/
theorem entries_offer_of_find? {t : Table ρ} {key : ρ → κ} {row : ρ} {stored : Entry ρ}
    (hfind : t.find? key (key row) = some stored) :
    (t.offer key (fun stored _ => stored) row).2.entries = t.entries := by
  have hstored := (mem_of_find? hfind).1
  refine eq_of_ascending (pairwise_entries _) (pairwise_entries t) fun entry => ?_
  rw [mem_entries_offer, offer_of_find? _ hfind]
  constructor
  · rintro (rfl | ⟨hmem, _⟩)
    · exact hstored
    · exact hmem
  · intro hmem
    by_cases hid : entry.id = stored.id
    · exact Or.inl (eq_of_mem_entries hmem hstored hid)
    · exact Or.inr ⟨hmem, hid⟩

namespace Keyed

variable {t : Table ρ} {key : ρ → κ} {rows : List ρ}

/-- A row with a new key comes after all others. -/
theorem entries_offer_of_find?_none (h : t.Keyed key) (refresh : ρ → ρ → ρ) {row : ρ}
    (hfind : t.find? key (key row) = none) :
    (t.offer key refresh row).2.entries = t.entries ++ [⟨t.nextId, row⟩] := by
  refine eq_of_ascending (pairwise_entries _) ?_ fun entry => ?_
  · rw [List.pairwise_append]
    refine ⟨pairwise_entries t, List.pairwise_singleton .., fun entry hentry new hnew => ?_⟩
    cases List.mem_singleton.1 hnew
    exact h.lt_nextId hentry
  · rw [h.mem_entries_offer, offer_of_find?_none refresh hfind, List.mem_append,
      List.mem_singleton, or_comm]
    exact or_congr_left (and_iff_left_of_imp fun hentry => find?_eq_none.1 hfind entry hentry)

/-- Where stored rows are left alone, a batch adds its rows with new keys after all others. -/
theorem exists_added (h : t.Keyed key) (hnodup : (rows.map key).Nodup) :
    ∃ added, (t.offerAll key (fun stored _ => stored) rows).2.entries = t.entries ++ added ∧
      added.map (·.row) = rows.filter fun row => (t.find? key (key row)).isNone := by
  induction rows generalizing t with
  | nil => exact ⟨[], (List.append_nil _).symm, rfl⟩
  | cons row rest ih =>
    rw [List.map_cons, List.nodup_cons] at hnodup
    have hkeep : KeepsKey key fun stored _ => stored := fun _ _ _ => rfl
    obtain ⟨added, hentries, hadded⟩ := ih (h.offer hkeep row) hnodup.2
    -- the first row has a key of its own
    have hrest : (rest.filter fun other =>
        ((t.offer key (fun stored _ => stored) row).2.find? key (key other)).isNone) =
        rest.filter fun other => (t.find? key (key other)).isNone := by
      apply List.filter_congr
      intro other hother
      have hne : key row ≠ key other := fun he => hnodup.1 (he ▸ List.mem_map_of_mem hother)
      rw [h.find?_offer hkeep, if_neg hne]
    rw [hrest] at hadded
    rw [Table.offerAll, hentries]
    cases hfind : t.find? key (key row) with
    | none =>
      refine ⟨⟨t.nextId, row⟩ :: added, ?_, ?_⟩
      · rw [h.entries_offer_of_find?_none _ hfind, List.append_assoc, List.singleton_append]
      · rw [List.map_cons, hadded, List.filter_cons_of_pos (by rw [hfind]; rfl)]
    | some stored =>
      refine ⟨added, ?_, ?_⟩
      · rw [entries_offer_of_find? hfind]
      · rw [hadded, List.filter_cons_of_neg (by rw [hfind]; exact Bool.false_ne_true)]

end Keyed

end BlockArchive.Table
