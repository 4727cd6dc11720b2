import BlockArchive.Store.Table
import Mathlib.Tactic.Tauto

/-!
# Tables with unique keys

A table is keyed when no two of its rows share their key and every stored row has an id that has
been given. Offering rows keeps a table keyed, and so does taking rows out; what a batch does to a
keyed table can be told key by key.

## Main definitions

- `Table.Keyed`: no two rows share their key, and every id has been given
- `Table.KeepsKey`: refreshing a row does not change its key

## Main statements

- `Table.Keyed.mem_entries_offer`: the rows after one has been offered
- `Table.Keyed.find?_offer`, `Table.Keyed.find?_remove`: what is stored under a key
-/

namespace BlockArchive

namespace Table

variable {ρ κ : Type}

theorem mem_entries {t : Table ρ} {entry : Entry ρ} :
    entry ∈ t.entries ↔ t.rows[entry.id]? = some entry.row := by
  rw [← Std.ExtTreeMap.mem_toList_iff_getElem?_eq_some, entries, List.mem_map]
  constructor
  · rintro ⟨⟨id, row⟩, h, rfl⟩
    exact h
  · intro h
    exact ⟨(entry.id, entry.row), h, rfl⟩

theorem eq_of_mem_entries {t : Table ρ} {a b : Entry ρ} (ha : a ∈ t.entries)
    (hb : b ∈ t.entries) (h : a.id = b.id) : a = b := by
  rw [mem_entries] at ha hb
  rw [h, hb] at ha
  cases a; cases b
  simp only [Option.some.injEq] at ha
  simp only at h
  rw [h, ha]

theorem mem_rows_iff {t : Table ρ} {id : Id} :
    id ∈ t.rows ↔ ∃ entry ∈ t.entries, entry.id = id := by
  rw [Std.ExtTreeMap.mem_iff_isSome_getElem?, Option.isSome_iff_exists]
  constructor
  · rintro ⟨row, h⟩
    exact ⟨⟨id, row⟩, mem_entries.2 h, rfl⟩
  · rintro ⟨entry, h, rfl⟩
    exact ⟨entry.row, mem_entries.1 h⟩

theorem rows_eq_of_entries {s t : Table ρ} (h : ∀ entry, entry ∈ s.entries ↔ entry ∈ t.entries) :
    s.rows = t.rows := by
  apply Std.ExtTreeMap.ext_getElem?
  intro id
  apply Option.ext
  intro row
  have := h ⟨id, row⟩
  rwa [mem_entries, mem_entries] at this

@[simp] theorem entries_skip (t : Table ρ) (count : Nat) : (t.skip count).entries = t.entries := rfl

@[simp] theorem entries_rollback (before after : Table ρ) :
    (before.rollback after).entries = before.entries := rfl

@[simp] theorem entries_empty : (∅ : Table ρ).entries = [] := rfl

theorem mem_entries_remove {t : Table ρ} {doomed : Entry ρ → Bool} {entry : Entry ρ} :
    entry ∈ (t.remove doomed).entries ↔ entry ∈ t.entries ∧ doomed entry = false := by
  rw [mem_entries, mem_entries, remove, Std.ExtTreeMap.getElem?_filter']
  cases h : t.rows[entry.id]? with
  | none => simp
  | some row =>
    simp only [Option.filter_some]
    constructor
    · intro hrow
      split at hrow
      · next hd =>
        cases hrow
        exact ⟨rfl, by simpa using hd⟩
      · cases hrow
    · rintro ⟨hrow, hd⟩
      cases hrow
      have hd : doomed ⟨entry.id, entry.row⟩ = false := hd
      simp [hd]

/-! ## Offering one row -/

section Offer

variable [DecidableEq κ]

theorem find?_eq_none {t : Table ρ} {key : ρ → κ} {k : κ} :
    t.find? key k = none ↔ ∀ entry ∈ t.entries, key entry.row ≠ k := by
  simp [find?]

theorem mem_of_find? {t : Table ρ} {key : ρ → κ} {k : κ} {entry : Entry ρ}
    (h : t.find? key k = some entry) : entry ∈ t.entries ∧ key entry.row = k :=
  ⟨List.mem_of_find?_eq_some h, by simpa using List.find?_some h⟩

theorem offer_of_find? {t : Table ρ} {key : ρ → κ} (refresh : ρ → ρ → ρ) {row : ρ}
    {stored : Entry ρ} (h : t.find? key (key row) = some stored) :
    (t.offer key refresh row).1 = ⟨stored.id, refresh stored.row row⟩ := by
  simp [offer, settle, h]

theorem offer_of_find?_none {t : Table ρ} {key : ρ → κ} (refresh : ρ → ρ → ρ) {row : ρ}
    (h : t.find? key (key row) = none) : (t.offer key refresh row).1 = ⟨t.nextId, row⟩ := by
  simp [offer, settle, h]

theorem mem_entries_offer {t : Table ρ} {key : ρ → κ} {refresh : ρ → ρ → ρ} {row : ρ}
    {entry : Entry ρ} :
    entry ∈ (t.offer key refresh row).2.entries ↔
      entry = (t.offer key refresh row).1 ∨
        entry ∈ t.entries ∧ entry.id ≠ (t.offer key refresh row).1.id := by
  have hrows : (t.offer key refresh row).2.rows =
      t.rows.insert (t.offer key refresh row).1.id (t.offer key refresh row).1.row := rfl
  rw [mem_entries, mem_entries, hrows, Std.ExtTreeMap.getElem?_insert]
  generalize (t.offer key refresh row).1 = offered
  by_cases h : offered.id = entry.id
  · rw [if_pos (Std.LawfulEqOrd.compare_eq_iff_eq.2 h)]
    constructor
    · intro hrow
      cases offered; cases entry
      cases h
      cases hrow
      exact Or.inl rfl
    · rintro (rfl | ⟨_, hne⟩)
      · rfl
      · exact absurd h.symm hne
  · rw [if_neg (fun hc => h (Std.LawfulEqOrd.compare_eq_iff_eq.1 hc))]
    constructor
    · intro hrow
      exact Or.inr ⟨hrow, fun he => h he.symm⟩
    · rintro (rfl | ⟨hrow, _⟩)
      · exact absurd rfl h
      · exact hrow

theorem mem_rows_offer {t : Table ρ} (key : ρ → κ) (refresh : ρ → ρ → ρ) (row : ρ) {id : Id}
    (h : id ∈ t.rows) : id ∈ (t.offer key refresh row).2.rows :=
  Std.ExtTreeMap.mem_insert.2 (Or.inr h)

end Offer

/-! ## Keyed tables -/

/-- No two rows share their key, and every stored row has an id that has been given. -/
structure Keyed (t : Table ρ) (key : ρ → κ) : Prop where
  /-- Ids that have been given lie below the next one. -/
  lt_nextId : ∀ {entry}, entry ∈ t.entries → entry.id < t.nextId
  /-- Rows with one key are one row. -/
  eq_of_key : ∀ {a b}, a ∈ t.entries → b ∈ t.entries → key a.row = key b.row → a = b

/-- Refreshing a stored row with one that has its key does not change the key. -/
def KeepsKey (key : ρ → κ) (refresh : ρ → ρ → ρ) : Prop :=
  ∀ stored offered, key offered = key stored → key (refresh stored offered) = key stored

namespace Keyed

variable {t : Table ρ} {key : ρ → κ} {refresh : ρ → ρ → ρ}

theorem empty (key : ρ → κ) : (∅ : Table ρ).Keyed key :=
  ⟨fun h => by simp at h, fun h => by simp at h⟩

/-- Taking ids away keeps a table keyed. -/
theorem of_entries {u : Table ρ} (h : t.Keyed key) (hentries : u.entries = t.entries)
    (hle : t.nextId ≤ u.nextId) : u.Keyed key where
  lt_nextId hmem := by
    rw [hentries] at hmem
    exact Int.lt_of_lt_of_le (h.lt_nextId hmem) hle
  eq_of_key ha hb := by
    rw [hentries] at ha hb
    exact h.eq_of_key ha hb

theorem remove (h : t.Keyed key) (doomed : Entry ρ → Bool) : (t.remove doomed).Keyed key where
  lt_nextId hmem := h.lt_nextId (mem_entries_remove.1 hmem).1
  eq_of_key ha hb := h.eq_of_key (mem_entries_remove.1 ha).1 (mem_entries_remove.1 hb).1

variable [DecidableEq κ]

theorem find?_eq_some (h : t.Keyed key) {k : κ} {entry : Entry ρ} :
    t.find? key k = some entry ↔ entry ∈ t.entries ∧ key entry.row = k := by
  refine ⟨mem_of_find?, ?_⟩
  rintro ⟨hmem, hkey⟩
  cases hfind : t.find? key k with
  | none => exact absurd hkey (find?_eq_none.1 hfind entry hmem)
  | some other =>
    obtain ⟨hother, hk⟩ := mem_of_find? hfind
    rw [h.eq_of_key hother hmem (hk.trans hkey.symm)]

theorem find?_remove (h : t.Keyed key) (doomed : Entry ρ → Bool) (k : κ) :
    (t.remove doomed).find? key k = (t.find? key k).filter fun entry => !doomed entry := by
  apply Option.ext
  intro entry
  rw [(h.remove doomed).find?_eq_some, mem_entries_remove, Option.filter_eq_some_iff,
    h.find?_eq_some, Bool.not_eq_true']
  tauto

theorem key_offer (h : KeepsKey key refresh) (t : Table ρ) (row : ρ) :
    key (t.offer key refresh row).1.row = key row := by
  cases hfind : t.find? key (key row) with
  | none => rw [offer_of_find?_none refresh hfind]
  | some stored =>
    rw [offer_of_find? refresh hfind]
    have hk := (mem_of_find? hfind).2
    exact (h stored.row row hk.symm).trans hk

/-- The row that an offered row takes the place of is the one with its key. -/
theorem mem_entries_offer (h : t.Keyed key) {row : ρ} {entry : Entry ρ} :
    entry ∈ (t.offer key refresh row).2.entries ↔
      entry = (t.offer key refresh row).1 ∨ entry ∈ t.entries ∧ key entry.row ≠ key row := by
  rw [Table.mem_entries_offer]
  have hid : entry ∈ t.entries →
      (entry.id ≠ (t.offer key refresh row).1.id ↔ key entry.row ≠ key row) := by
    intro hmem
    cases hfind : t.find? key (key row) with
    | none =>
      rw [offer_of_find?_none refresh hfind]
      have hlt := h.lt_nextId hmem
      exact ⟨fun _ => find?_eq_none.1 hfind entry hmem, fun _ => Int.ne_of_lt hlt⟩
    | some stored =>
      rw [offer_of_find? refresh hfind]
      obtain ⟨hstored, hk⟩ := mem_of_find? hfind
      refine not_congr ⟨fun hids => ?_, fun hkeys => ?_⟩
      · rw [eq_of_mem_entries hmem hstored hids, hk]
      · rw [h.eq_of_key hmem hstored (hkeys.trans hk.symm)]
  constructor
  · rintro (rfl | ⟨hmem, hne⟩)
    · exact Or.inl rfl
    · exact Or.inr ⟨hmem, (hid hmem).1 hne⟩
  · rintro (rfl | ⟨hmem, hne⟩)
    · exact Or.inl rfl
    · exact Or.inr ⟨hmem, (hid hmem).2 hne⟩

theorem id_offer_lt (h : t.Keyed key) (row : ρ) :
    (t.offer key refresh row).1.id < t.nextId + 1 := by
  cases hfind : t.find? key (key row) with
  | none =>
    rw [offer_of_find?_none refresh hfind]
    exact Int.lt_add_one_of_le (Int.le_refl _)
  | some stored =>
    rw [offer_of_find? refresh hfind]
    have hlt : stored.id < t.nextId := h.lt_nextId (mem_of_find? hfind).1
    exact Int.lt_add_one_of_le (Int.le_of_lt hlt)

theorem offer (h : t.Keyed key) (hkeep : KeepsKey key refresh) (row : ρ) :
    (t.offer key refresh row).2.Keyed key where
  lt_nextId hmem := by
    rw [nextId_offer]
    rcases h.mem_entries_offer.1 hmem with rfl | ⟨hold, _⟩
    · exact h.id_offer_lt row
    · exact Int.lt_add_one_of_le (Int.le_of_lt (h.lt_nextId hold))
  eq_of_key {a b} ha hb hab := by
    have hoffered := key_offer hkeep t row
    rcases h.mem_entries_offer.1 ha with rfl | ⟨ha, hane⟩
    · rcases h.mem_entries_offer.1 hb with rfl | ⟨_, hbne⟩
      · rfl
      · exact absurd (hab.symm.trans hoffered) hbne
    · rcases h.mem_entries_offer.1 hb with rfl | ⟨hb, _⟩
      · exact absurd (hab.trans hoffered) hane
      · exact h.eq_of_key ha hb hab

theorem find?_offer (h : t.Keyed key) (hkeep : KeepsKey key refresh) (row : ρ) (k : κ) :
    (t.offer key refresh row).2.find? key k =
      if key row = k then some (t.offer key refresh row).1 else t.find? key k := by
  apply Option.ext
  intro entry
  rw [(h.offer hkeep row).find?_eq_some, h.mem_entries_offer]
  have hoffered := key_offer hkeep t row
  by_cases hk : key row = k
  · rw [if_pos hk]
    constructor
    · rintro ⟨rfl | ⟨_, hne⟩, hkey⟩
      · rfl
      · exact absurd (hkey.trans hk.symm) hne
    · intro hentry
      cases hentry
      exact ⟨Or.inl rfl, hoffered.trans hk⟩
  · rw [if_neg hk, h.find?_eq_some]
    constructor
    · rintro ⟨rfl | ⟨hmem, _⟩, hkey⟩
      · exact absurd (hoffered.symm.trans hkey) hk
      · exact ⟨hmem, hkey⟩
    · rintro ⟨hmem, hkey⟩
      exact ⟨Or.inr ⟨hmem, fun he => hk (he.symm.trans hkey)⟩, hkey⟩

end Keyed

end Table

end BlockArchive
