import BlockArchive.Proofs.OrderedMap
import BlockArchive.Proofs.Store.Keyed
import Mathlib.Data.List.Nodup

/-!
# Batches of rows

What a keyed table is after a batch of rows has been offered to it, key by key, and how the ids of
the stored rows are found again by a part of the rows.

## Main definitions

- `Table.Settles`: what an offered row becomes
- `Table.OneByKey`: a batch may repeat rows, but has no two different rows of one key
- `Table.Absorbs`: a row that is offered again changes nothing

## Main statements

- `Table.Keyed.offerBatch_eq`: rows of different keys may be offered one by one
- `Table.offerAll_append`: a batch may be offered in parts
- `Table.Keyed.find?_offerAll_of_not_mem`: a key that is not offered keeps its row
- `Table.Keyed.find?_offerAll_of_mem`: an offered row settles under its key
- `Table.Keyed.find?_offerAll_stored`: the rows of a batch that leaves stored rows alone
- `Table.Keyed.rows_offerAll_of_stored`: offering what is stored changes no row
- `firstRepeat?_eq_none`: the batches that are not refused
- `Entry.exists_getElem?_idsBy`: every row that is told has an id that is found again
-/

namespace BlockArchive

namespace Table

variable {ρ κ : Type} [DecidableEq κ]

/-- Rows may be offered in two parts, the second when the first has been. -/
theorem offerAll_append (t : Table ρ) (key : ρ → κ) (refresh : ρ → ρ → ρ) (rows rows' : List ρ) :
    t.offerAll key refresh (rows ++ rows') =
      ((t.offerAll key refresh rows).1 ++
          ((t.offerAll key refresh rows).2.offerAll key refresh rows').1,
        ((t.offerAll key refresh rows).2.offerAll key refresh rows').2) := by
  induction rows generalizing t with
  | nil => rfl
  | cons row rest ih => simp only [List.cons_append, offerAll, ih]

theorem mem_rows_offerAll {t : Table ρ} (key : ρ → κ) (refresh : ρ → ρ → ρ) (rows : List ρ)
    {id : Id}
    (h : id ∈ t.rows) : id ∈ (t.offerAll key refresh rows).2.rows := by
  induction rows generalizing t with
  | nil => exact h
  | cons row rest ih => exact ih (mem_rows_offer key refresh row h)

theorem mem_or_mem_of_mem_offerAll {t : Table ρ} {key : ρ → κ} {refresh : ρ → ρ → ρ} {rows : List ρ}
    {entry : Entry ρ} (h : entry ∈ (t.offerAll key refresh rows).2.entries) :
    entry ∈ t.entries ∨ entry ∈ (t.offerAll key refresh rows).1 := by
  induction rows generalizing t with
  | nil => exact Or.inl h
  | cons row rest ih =>
    rcases ih h with h | h
    · rcases mem_entries_offer.1 h with rfl | ⟨h, _⟩
      · exact Or.inr List.mem_cons_self
      · exact Or.inl h
    · exact Or.inr (List.mem_cons_of_mem _ h)

/-- What holds of the stored rows and of the offered ones holds of the rows that a batch tells. -/
theorem forall_mem_offerAll {t : Table ρ} {key : ρ → κ} {refresh : ρ → ρ → ρ}
    {rows : List ρ} {P : ρ → Prop} (hstored : ∀ entry ∈ t.entries, P entry.row)
    (hrows : ∀ row ∈ rows, P row)
    (hrefresh : ∀ stored offered, P stored → P offered → P (refresh stored offered)) :
    ∀ entry ∈ (t.offerAll key refresh rows).1, P entry.row := by
  induction rows generalizing t with
  | nil => intro entry h; cases h
  | cons row rest ih =>
    have hrow := hrows row List.mem_cons_self
    have hfirst : P (t.offer key refresh row).1.row := by
      cases hfind : t.find? key (key row) with
      | none =>
        rw [offer_of_find?_none refresh hfind]
        exact hrow
      | some stored =>
        rw [offer_of_find? refresh hfind]
        exact hrefresh _ _ (hstored stored (mem_of_find? hfind).1) hrow
    have hrest : ∀ entry ∈ (t.offer key refresh row).2.entries, P entry.row := by
      intro entry hentry
      rcases mem_entries_offer.1 hentry with rfl | ⟨hold, _⟩
      · exact hfirst
      · exact hstored entry hold
    intro entry hentry
    rcases List.mem_cons.1 hentry with rfl | hentry
    · exact hfirst
    · exact ih hrest (fun other hother => hrows other (List.mem_cons_of_mem _ hother)) entry hentry

/-- What an offered row becomes: the stored row of its key is refreshed and keeps its id, and a row
with a new key is stored under a new id. -/
def Settles (t : Table ρ) (key : ρ → κ) (refresh : ρ → ρ → ρ) (row : ρ) (entry : Entry ρ) : Prop :=
  match t.find? key (key row) with
  | some stored => entry = ⟨stored.id, refresh stored.row row⟩
  | none => t.nextId ≤ entry.id ∧ entry.row = row

theorem settles_offer (t : Table ρ) (key : ρ → κ) (refresh : ρ → ρ → ρ) (row : ρ) :
    t.Settles key refresh row (t.offer key refresh row).1 := by
  unfold Settles
  split
  · next stored h => exact offer_of_find? refresh h
  · next h =>
    rw [offer_of_find?_none refresh h]
    exact ⟨Int.le_refl _, rfl⟩

theorem Settles.of_find? {t : Table ρ} {key : ρ → κ} {refresh : ρ → ρ → ρ} {row : ρ}
    {entry stored : Entry ρ} (h : t.Settles key refresh row entry)
    (hfind : t.find? key (key row) = some stored) :
    entry = ⟨stored.id, refresh stored.row row⟩ := by
  simpa only [Settles, hfind] using h

theorem Settles.of_find?_none {t : Table ρ} {key : ρ → κ} {refresh : ρ → ρ → ρ} {row : ρ}
    {entry : Entry ρ} (h : t.Settles key refresh row entry)
    (hfind : t.find? key (key row) = none) : t.nextId ≤ entry.id ∧ entry.row = row := by
  simpa only [Settles, hfind] using h

/-- Where offering replaces a stored row, the offered row is what is stored. -/
theorem Settles.row_eq {t : Table ρ} {key : ρ → κ} {refresh : ρ → ρ → ρ} {row : ρ} {entry : Entry ρ}
    (h : t.Settles key refresh row entry)
    (hrefresh : ∀ stored offered, refresh stored offered = offered) :
    entry.row = row := by
  cases hfind : t.find? key (key row) with
  | some stored => rw [h.of_find? hfind, hrefresh]
  | none => exact (h.of_find?_none hfind).2

/-- A row settles in the same way in tables that agree about its key. -/
theorem Settles.of_agree {t u : Table ρ} {key : ρ → κ} {refresh : ρ → ρ → ρ} {row : ρ}
    {entry : Entry ρ} (h : u.Settles key refresh row entry)
    (hfind : u.find? key (key row) = t.find? key (key row)) (hle : t.nextId ≤ u.nextId) :
    t.Settles key refresh row entry := by
  unfold Settles at h ⊢
  rw [hfind] at h
  split at h
  · exact h
  · exact ⟨Int.le_trans hle h.1, h.2⟩

/-- The batch has no two different rows of one key, though it may have a row more than once. -/
def OneByKey (key : ρ → κ) (rows : List ρ) : Prop :=
  ∀ a ∈ rows, ∀ b ∈ rows, key a = key b → a = b

omit [DecidableEq κ] in
theorem OneByKey.of_nodup {key : ρ → κ} {rows : List ρ} (h : (rows.map key).Nodup) :
    OneByKey key rows :=
  fun _ ha _ hb => List.inj_on_of_nodup_map h ha hb

/-- A row that has been offered changes nothing when it is offered again. -/
structure Absorbs (refresh : ρ → ρ → ρ) : Prop where
  again : ∀ stored row, refresh (refresh stored row) row = refresh stored row
  self : ∀ row, refresh row row = row

/-- Where a row has settled it changes nothing when it is offered again. -/
theorem Settles.refresh_eq {t : Table ρ} {key : ρ → κ} {refresh : ρ → ρ → ρ} {row : ρ}
    {entry : Entry ρ} (h : t.Settles key refresh row entry) (habsorbs : Absorbs refresh) :
    refresh entry.row row = entry.row := by
  cases hfind : t.find? key (key row) with
  | some stored => rw [h.of_find? hfind, habsorbs.again]
  | none => rw [(h.of_find?_none hfind).2, habsorbs.self]

/-- A row settles under its key, be it offered alone or with others. -/
theorem key_settle {key : ρ → κ} {refresh : ρ → ρ → ρ} (hkeep : KeepsKey key refresh) (t : Table ρ)
    (id : Id) (row : ρ) : key (t.settle key refresh id row).row = key row := by
  unfold settle
  split
  · next stored hfind =>
    have hk := (mem_of_find? hfind).2
    exact (hkeep stored.row row hk.symm).trans hk
  · rfl

/-- What a batch tells has the keys of the batch. -/
theorem map_key_offerBatch {key : ρ → κ} {refresh : ρ → ρ → ρ} (hkeep : KeepsKey key refresh)
    (t : Table ρ) (rows : List ρ) :
    ((t.offerBatch key refresh rows).1.map fun entry => key entry.row) = rows.map key := by
  rw [offerBatch, List.map_map]
  conv_rhs => rw [← List.zipIdx_map_fst 0 rows, List.map_map]
  exact List.map_congr_left fun pair _ => key_settle hkeep t _ pair.1

/-- A single row is offered in one way only. -/
theorem offerBatch_singleton (t : Table ρ) (key : ρ → κ) (refresh : ρ → ρ → ρ) (row : ρ) :
    t.offerBatch key refresh [row] = t.offerAll key refresh [row] := by
  have hid : t.nextId + ((0 : Nat) : Int) = t.nextId := Int.add_zero _
  simp only [offerBatch, List.zipIdx_singleton, List.map_cons, List.map_nil, hid]
  rfl

namespace Keyed

variable {t : Table ρ} {key : ρ → κ} {refresh : ρ → ρ → ρ} {rows : List ρ}

theorem offerAll (h : t.Keyed key) (hkeep : KeepsKey key refresh) (rows : List ρ) :
    (t.offerAll key refresh rows).2.Keyed key := by
  induction rows generalizing t with
  | nil => exact h
  | cons row rest ih => exact ih (h.offer hkeep row)

theorem map_key_offerAll (hkeep : KeepsKey key refresh) (t : Table ρ) (rows : List ρ) :
    ((t.offerAll key refresh rows).1.map fun entry => key entry.row) = rows.map key := by
  induction rows generalizing t with
  | nil => rfl
  | cons row rest ih =>
    simp only [Table.offerAll, List.map_cons, ih, key_offer hkeep]

theorem find?_offerAll_of_not_mem (h : t.Keyed key) (hkeep : KeepsKey key refresh) {k : κ}
    (hk : ∀ row ∈ rows, key row ≠ k) :
    (t.offerAll key refresh rows).2.find? key k = t.find? key k := by
  induction rows generalizing t with
  | nil => rfl
  | cons row rest ih =>
    have hrest := ih (h.offer hkeep row) fun other hother =>
      hk other (List.mem_cons_of_mem _ hother)
    have hne := hk row List.mem_cons_self
    rw [Table.offerAll, hrest, h.find?_offer hkeep, if_neg hne]

/-- Rows of different keys that settle in `t` are offered to a table that still has what `t` has
under their keys. -/
theorem offerAll_eq_settle (h : t.Keyed key) (hkeep : KeepsKey key refresh) {u : Table ρ}
    {place : Nat} (hnext : t.nextId = u.nextId + place)
    (hfind : ∀ row ∈ rows, t.find? key (key row) = u.find? key (key row))
    (hnodup : (rows.map key).Nodup) :
    let told := (rows.zipIdx place).map fun (row, place) =>
      u.settle key refresh (u.nextId + place) row
    t.offerAll key refresh rows = (told, told.foldl put t) := by
  induction rows generalizing t place with
  | nil => rfl
  | cons row rest ih =>
    rw [List.map_cons, List.nodup_cons] at hnodup
    have hsettle : (t.offer key refresh row).1 = u.settle key refresh (u.nextId + place) row := by
      rw [Table.offer, settle, settle, hfind row List.mem_cons_self, hnext]
    have hnext' : (t.offer key refresh row).2.nextId = u.nextId + ((place + 1 : Nat) : Int) := by
      rw [nextId_offer, hnext, Int.natCast_succ, Int.add_assoc]
    have hrest := ih (h.offer hkeep row) hnext' (fun other hother => ?_) hnodup.2
    · have hput : (t.offer key refresh row).2 =
          t.put (u.settle key refresh (u.nextId + place) row) := by
        rw [← hsettle]
        rfl
      rw [hput] at hrest
      simp only [Table.offerAll, hsettle, hput, hrest, List.zipIdx_cons, List.map_cons,
        List.foldl_cons]
    · have hne : key row ≠ key other := fun he => hnodup.1 (he ▸ List.mem_map_of_mem hother)
      rw [h.find?_offer hkeep, if_neg hne, hfind other (List.mem_cons_of_mem _ hother)]

/-- Where no two rows have one key it does not matter whether they are offered at once or one after
the other. -/
theorem offerBatch_eq (h : t.Keyed key) (hkeep : KeepsKey key refresh)
    (hnodup : (rows.map key).Nodup) :
    t.offerBatch key refresh rows = t.offerAll key refresh rows :=
  (h.offerAll_eq_settle hkeep (Int.add_zero _).symm (fun _ _ => rfl) hnodup).symm

/-- Where stored rows are left alone, a key has the row it had or else the first that is offered. -/
theorem find?_offerAll_stored (h : t.Keyed key) (rows : List ρ) (k : κ) :
    ((t.offerAll key (fun stored _ => stored) rows).2.find? key k).map (·.row) =
      ((t.find? key k).map (·.row)).or (rows.find? fun row => key row = k) := by
  have hkeep : KeepsKey key fun stored _ => stored := fun _ _ _ => rfl
  induction rows generalizing t with
  | nil => simp [Table.offerAll]
  | cons row rest ih =>
    rw [Table.offerAll, ih (h.offer hkeep row), h.find?_offer hkeep, List.find?_cons]
    by_cases hk : key row = k
    · subst hk
      cases hfind : t.find? key (key row) with
      | none => simp [offer_of_find?_none _ hfind]
      | some stored => simp [offer_of_find? _ hfind]
    · simp [hk]

/-- What holds of a stored row goes on to hold of the row of its id, if it holds of a row that is
refreshed by one that is offered under its key. -/
theorem exists_mem_offerAll_of_kept (h : t.Keyed key) (hkeep : KeepsKey key refresh) {P : ρ → Prop}
    (hP : ∀ stored, ∀ row ∈ rows, key row = key stored → P stored → P (refresh stored row))
    {entry : Entry ρ} (hentry : entry ∈ t.entries) (hrow : P entry.row) :
    ∃ kept ∈ (t.offerAll key refresh rows).2.entries, kept.id = entry.id ∧ P kept.row := by
  induction rows generalizing t entry with
  | nil => exact ⟨entry, hentry, rfl, hrow⟩
  | cons row rest ih =>
    have hnext := h.offer hkeep row
    have hrest : ∀ stored, ∀ other ∈ rest, key other = key stored → P stored →
        P (refresh stored other) :=
      fun stored other hother => hP stored other (List.mem_cons_of_mem _ hother)
    by_cases hk : key entry.row = key row
    · have hfind : t.find? key (key row) = some entry := h.find?_eq_some.2 ⟨hentry, hk⟩
      have hoffered : (t.offer key refresh row).1 ∈ (t.offer key refresh row).2.entries :=
        h.mem_entries_offer.2 (Or.inl rfl)
      rw [offer_of_find? refresh hfind] at hoffered
      have hkept := ih hnext hrest hoffered (hP entry.row row List.mem_cons_self hk.symm hrow)
      exact hkept
    · exact ih hnext hrest (h.mem_entries_offer.2 (Or.inr ⟨hentry, hk⟩)) hrow

/-- A stored row keeps its id and its key when rows are offered. -/
theorem exists_mem_offerAll (h : t.Keyed key) (hkeep : KeepsKey key refresh) (rows : List ρ)
    {entry : Entry ρ} (hentry : entry ∈ t.entries) :
    ∃ kept ∈ (t.offerAll key refresh rows).2.entries,
      kept.id = entry.id ∧ key kept.row = key entry.row :=
  h.exists_mem_offerAll_of_kept hkeep
    (fun stored row _ hkey hstored => (hkeep stored row hkey).trans hstored) hentry rfl

/-- A row whose id had been given before a batch was there before it, under the same key. -/
theorem exists_of_mem_offerAll (h : t.Keyed key) (hkeep : KeepsKey key refresh) (rows : List ρ)
    {entry : Entry ρ} (hentry : entry ∈ (t.offerAll key refresh rows).2.entries)
    (hid : entry.id < t.nextId) :
    ∃ old ∈ t.entries, old.id = entry.id ∧ key old.row = key entry.row := by
  induction rows generalizing t with
  | nil => exact ⟨entry, hentry, rfl, rfl⟩
  | cons row rest ih =>
    have hlt : entry.id < (t.offer key refresh row).2.nextId := by
      rw [nextId_offer]
      exact Int.lt_add_one_of_le (Int.le_of_lt hid)
    obtain ⟨middle, hmiddle, hsame, hkeys⟩ := ih (h.offer hkeep row) hentry hlt
    rcases h.mem_entries_offer.1 hmiddle with rfl | ⟨hold, _⟩
    · have hoffered := key_offer hkeep t row
      cases hfind : t.find? key (key row) with
      | none =>
        -- a new row has the next id, which had not been given
        rw [offer_of_find?_none refresh hfind] at hsame
        exact absurd hsame (Int.ne_of_gt hid)
      | some stored =>
        obtain ⟨hstored, hk⟩ := mem_of_find? hfind
        refine ⟨stored, hstored, ?_, hk.trans (hoffered.symm.trans hkeys)⟩
        rw [← hsame, offer_of_find? refresh hfind]
    · exact ⟨middle, hold, hsame, hkeys⟩

/-- A stored row stays as it is when no row that is offered under its key changes it. -/
theorem mem_offerAll_of_fixed (h : t.Keyed key) (hkeep : KeepsKey key refresh) {entry : Entry ρ}
    (hentry : entry ∈ t.entries)
    (hfixed : ∀ row ∈ rows, key row = key entry.row → refresh entry.row row = entry.row) :
    entry ∈ (t.offerAll key refresh rows).2.entries := by
  induction rows generalizing t with
  | nil => exact hentry
  | cons row rest ih =>
    apply ih (h.offer hkeep row) _ fun other hother => hfixed other (List.mem_cons_of_mem _ hother)
    by_cases hk : key entry.row = key row
    · have hfind : t.find? key (key row) = some entry := h.find?_eq_some.2 ⟨hentry, hk⟩
      refine h.mem_entries_offer.2 (Or.inl ?_)
      rw [offer_of_find? refresh hfind, hfixed row List.mem_cons_self hk.symm]
    · exact h.mem_entries_offer.2 (Or.inr ⟨hentry, hk⟩)

/-- What a batch tells is what is stored. -/
theorem find?_of_mem_offerAll (h : t.Keyed key) (hkeep : KeepsKey key refresh)
    (habsorbs : Absorbs refresh) (hone : OneByKey key rows) {entry : Entry ρ}
    (hentry : entry ∈ (t.offerAll key refresh rows).1) :
    ∃ row ∈ rows, (t.offerAll key refresh rows).2.find? key (key row) = some entry ∧
      t.Settles key refresh row entry := by
  induction rows generalizing t with
  | nil => cases hentry
  | cons first rest ih =>
    have hnext := h.offer hkeep first
    have hsettles := settles_offer t key refresh first
    have hfirst := key_offer hkeep t first
    rcases List.mem_cons.1 hentry with rfl | hentry
    · refine ⟨first, List.mem_cons_self, ?_, hsettles⟩
      -- later rows of its key are the first row again, and change nothing
      have hstays : (t.offer key refresh first).1 ∈
          ((t.offer key refresh first).2.offerAll key refresh rest).2.entries := by
        refine hnext.mem_offerAll_of_fixed hkeep (h.mem_entries_offer.2 (Or.inl rfl))
          fun row hrow hkey => ?_
        rw [hone row (List.mem_cons_of_mem _ hrow) first List.mem_cons_self (hkey.trans hfirst)]
        exact hsettles.refresh_eq habsorbs
      exact (hnext.offerAll hkeep rest).find?_eq_some.2 ⟨hstays, hfirst⟩
    · obtain ⟨row, hrow, hstored, hlater⟩ := ih hnext
        (fun a ha b hb => hone a (List.mem_cons_of_mem _ ha) b (List.mem_cons_of_mem _ hb)) hentry
      refine ⟨row, List.mem_cons_of_mem _ hrow, hstored, ?_⟩
      have hfind := h.find?_offer hkeep first (key row)
      by_cases hkey : key first = key row
      · have hsame : first = row := hone first List.mem_cons_self row
          (List.mem_cons_of_mem _ hrow) hkey
        subst hsame
        rw [if_pos rfl] at hfind
        rw [hlater.of_find? hfind, hsettles.refresh_eq habsorbs]
        exact hsettles
      · rw [if_neg hkey] at hfind
        exact hlater.of_agree hfind (Int.le_of_lt (Int.lt_succ _))

/-- An offered row settles under its key. -/
theorem find?_offerAll_of_mem (h : t.Keyed key) (hkeep : KeepsKey key refresh)
    (habsorbs : Absorbs refresh) (hone : OneByKey key rows) {row : ρ} (hrow : row ∈ rows) :
    ∃ entry ∈ (t.offerAll key refresh rows).1,
      (t.offerAll key refresh rows).2.find? key (key row) = some entry ∧
        t.Settles key refresh row entry := by
  have hmem : key row ∈ (t.offerAll key refresh rows).1.map fun entry => key entry.row := by
    rw [map_key_offerAll hkeep]
    exact List.mem_map_of_mem hrow
  obtain ⟨entry, hentry, hkey⟩ := List.mem_map.1 hmem
  obtain ⟨other, hother, hstored, hsettles⟩ :=
    h.find?_of_mem_offerAll hkeep habsorbs hone hentry
  have hsame : other = row :=
    hone other hother row hrow ((mem_of_find? hstored).2.symm.trans hkey)
  exact ⟨entry, hentry, hsame ▸ hstored, hsame ▸ hsettles⟩

/-- Offering what is stored changes no row. -/
theorem rows_offerAll_of_stored (h : t.Keyed key) (hkeep : KeepsKey key refresh)
    (hstored : ∀ row ∈ rows, ∃ stored ∈ t.entries,
      key stored.row = key row ∧ refresh stored.row row = stored.row) :
    (t.offerAll key refresh rows).2.rows = t.rows := by
  induction rows generalizing t with
  | nil => rfl
  | cons row rest ih =>
    obtain ⟨stored, hmem, hkey, hrefresh⟩ := hstored row List.mem_cons_self
    have hfind : t.find? key (key row) = some stored := h.find?_eq_some.2 ⟨hmem, hkey⟩
    have hoffered : (t.offer key refresh row).1 = stored := by
      rw [offer_of_find? refresh hfind, hrefresh]
    have hrows : (t.offer key refresh row).2.rows = t.rows := by
      apply rows_eq_of_entries
      intro entry
      rw [h.mem_entries_offer, hoffered]
      constructor
      · rintro (rfl | ⟨hentry, _⟩)
        · exact hmem
        · exact hentry
      · intro hentry
        by_cases hk : key entry.row = key row
        · exact Or.inl (h.eq_of_key hentry hmem (hk.trans hkey.symm))
        · exact Or.inr ⟨hentry, hk⟩
    have hentries : (t.offer key refresh row).2.entries = t.entries := by
      unfold entries
      rw [hrows]
    rw [Table.offerAll, ih (h.offer hkeep row), hrows]
    intro other hother
    rw [hentries]
    exact hstored other (List.mem_cons_of_mem _ hother)

end Keyed

end Table

/-! ## Repeated keys -/

section FirstRepeat

variable {κ : Type} [Ord κ] [Std.TransOrd κ] [Std.LawfulEqOrd κ]

theorem firstRepeatFrom?_eq_none {seen : Std.ExtTreeSet κ} {place : Nat} {keys : List κ} :
    firstRepeatFrom? seen place keys = none ↔ keys.Nodup ∧ ∀ key ∈ keys, key ∉ seen := by
  induction keys generalizing seen place with
  | nil => simp [firstRepeatFrom?]
  | cons key rest ih =>
    rw [firstRepeatFrom?]
    by_cases hseen : key ∈ seen
    · simp [hseen]
    · rw [if_neg hseen, ih, List.nodup_cons, List.forall_mem_cons]
      constructor
      · rintro ⟨hnodup, hfree⟩
        refine ⟨⟨fun hmem => ?_, hnodup⟩, hseen, fun other hother hmem => ?_⟩
        · exact hfree key hmem Std.ExtTreeSet.mem_insert_self
        · exact hfree other hother (Std.ExtTreeSet.mem_insert.2 (Or.inr hmem))
      · rintro ⟨⟨hnew, hnodup⟩, -, hfree⟩
        refine ⟨hnodup, fun other hother hmem => ?_⟩
        rcases Std.ExtTreeSet.mem_insert.1 hmem with he | hmem
        · exact hnew (Std.LawfulEqOrd.eq_of_compare he ▸ hother)
        · exact hfree other hother hmem

theorem firstRepeat?_eq_none {keys : List κ} : firstRepeat? keys = none ↔ keys.Nodup := by
  rw [firstRepeat?, firstRepeatFrom?_eq_none, and_iff_left]
  exact fun _ _ => Std.ExtTreeSet.not_mem_empty

end FirstRepeat

/-! ## Ids by a part of the rows -/

namespace Entry

variable {ρ κ : Type} [Ord κ] [Std.TransOrd κ] [Std.LawfulEqOrd κ]

theorem size_idsBy {part : ρ → κ} {entries : List (Entry ρ)}
    (hnodup : (entries.map fun entry => part entry.row).Nodup) :
    (idsBy part entries).size = entries.length := by
  rw [idsBy, OrderedMap.size_ofList_of_nodup (by rwa [List.map_map]), List.length_map]

/-- Every row has an id that is found again. -/
theorem exists_getElem?_idsBy [DecidableEq κ] (part : ρ → κ) {entries : List (Entry ρ)}
    {entry : Entry ρ} (h : entry ∈ entries) :
    ∃ id, (idsBy part entries)[part entry.row]? = some id := by
  rw [idsBy, OrderedMap.getElem?_ofList, ← Option.isSome_iff_exists, Option.isSome_map,
    List.find?_isSome]
  exact ⟨(part entry.row, entry.id), List.mem_reverse.2 (List.mem_map_of_mem h), by simp⟩

theorem exists_of_getElem?_idsBy [DecidableEq κ] {part : ρ → κ} {entries : List (Entry ρ)} {k : κ}
    {id : Id}
    (h : (idsBy part entries)[k]? = some id) :
    ∃ entry ∈ entries, part entry.row = k ∧ entry.id = id := by
  obtain ⟨pair, hpair, hk, hid⟩ := OrderedMap.exists_of_getElem?_ofList h
  obtain ⟨entry, hentry, rfl⟩ := List.mem_map.1 hpair
  exact ⟨entry, hentry, hk, hid⟩

end Entry

end BlockArchive
