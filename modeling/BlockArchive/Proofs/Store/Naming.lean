import BlockArchive.Proofs.Store.Sound

/-!
# Names of stored rows

Rows of one level name those of the level above by the ids under which these are stored. The id that
a key has in the store after a batch is the one that the batch tells for it, and it is either the id
that the key had before or one that no row ever had.

## Main definitions

- `Store.find?`, `Store.idOf`: the row of a key, and its id
- `Store.Gives`: the id that a key has, or may be given next

## Main statements

- `Store.ends_upsertOne`: offering a single row
- `Store.size_idsBy_told`, `Store.getElem?_idsBy_told`: the ids that a batch tells
-/

namespace BlockArchive.Store

/-- The row of a key. -/
def find? (s : Store) (n : TableName) (k : Key) : Option (Entry n.Row) :=
  (s.get n).find? n.key k

/-- The id of the row of a key; zero, which no row has, if there is none. -/
def idOf (s : Store) (n : TableName) (k : Key) : Id :=
  ((s.find? n k).map (·.id)).getD 0

/-- The id that a key has, or an id that may yet be given to it. -/
def Gives (s : Store) (n : TableName) (k : Key) (id : Id) : Prop :=
  match s.find? n k with
  | some stored => id = stored.id
  | none => (s.get n).nextId ≤ id

theorem idOf_eq {s : Store} {n : TableName} {k : Key} {entry : Entry n.Row}
    (h : s.find? n k = some entry) : s.idOf n k = entry.id := by
  rw [idOf, h]
  rfl

theorem mem_of_find? {s : Store} {n : TableName} {k : Key} {entry : Entry n.Row}
    (h : s.find? n k = some entry) : entry ∈ (s.get n).entries ∧ n.key entry.row = k :=
  Table.mem_of_find? h

theorem resolves_idOf {s : Store} {n : TableName} {k : Key} {entry : Entry n.Row}
    (h : s.find? n k = some entry) (column : String) : s.Resolves ⟨column, n, s.idOf n k⟩ := by
  rw [idOf_eq h]
  exact Table.mem_rows_iff.2 ⟨entry, (mem_of_find? h).1, rfl⟩

theorem getElem?_idOf {s : Store} {n : TableName} {k : Key} {entry : Entry n.Row}
    (h : s.find? n k = some entry) : (s.get n).rows[s.idOf n k]? = some entry.row := by
  rw [idOf_eq h]
  exact Table.mem_entries.1 (mem_of_find? h).1

/-- Different keys of stored rows have different ids. -/
theorem key_eq_of_idOf {s : Store} {n : TableName} {k l : Key} {a b : Entry n.Row}
    (ha : s.find? n k = some a)
    (hb : s.find? n l = some b) (h : s.idOf n k = s.idOf n l) : k = l := by
  rw [idOf_eq ha, idOf_eq hb] at h
  obtain ⟨hamem, hakey⟩ := mem_of_find? ha
  obtain ⟨hbmem, hbkey⟩ := mem_of_find? hb
  rw [← hakey, ← hbkey, Table.eq_of_mem_entries hamem hbmem h]

/-- Different keys have different ids, as long as each of them is stored. -/
theorem nodup_idOf {s : Store} {n : TableName} {keys : List Key} (hkeys : keys.Nodup)
    (hstored : ∀ k ∈ keys, ∃ entry, s.find? n k = some entry) : (keys.map (s.idOf n)).Nodup := by
  apply List.Nodup.map_on _ hkeys
  intro k hk l hl h
  obtain ⟨a, ha⟩ := hstored k hk
  obtain ⟨b, hb⟩ := hstored l hl
  exact key_eq_of_idOf ha hb h

theorem idOf_congr {s t : Store} {n : TableName} (h : (s.get n).entries = (t.get n).entries)
    (k : Key) :
    s.idOf n k = t.idOf n k := by
  simp only [idOf, find?, Table.find?, h]

theorem idOf_offer_of_ne (s : Store) {n m : TableName} (rows : List n.Row) (h : m ≠ n) (k : Key) :
    (s.offer n rows).idOf m k = s.idOf m k :=
  idOf_congr (by rw [get_offer_of_ne s rows h]) k

theorem find?_offer_of_ne (s : Store) {n m : TableName} (rows : List n.Row) (h : m ≠ n) (k : Key) :
    (s.offer n rows).find? m k = s.find? m k := by
  rw [find?, get_offer_of_ne s rows h]
  rfl

namespace Sound

variable {s : Store} {n : TableName} {rows : List n.Row}

theorem find?_eq_some (hs : s.Sound) {k : Key} {entry : Entry n.Row} :
    s.find? n k = some entry ↔ entry ∈ (s.get n).entries ∧ n.key entry.row = k :=
  (hs.keyed n).find?_eq_some

end Sound

theorem told_singleton (s : Store) (n : TableName) (row : n.Row) :
    s.told n [row] = [((s.get n).offer n.key n.refresh row).1] := rfl

theorem find?_offer_singleton {s : Store} (hs : s.Sound) (n : TableName) (row : n.Row) :
    (s.offer n [row]).find? n (n.key row) = some ((s.get n).offer n.key n.refresh row).1 := by
  have hfind := (hs.keyed n).find?_offer n.keepsKey_refresh row (n.key row)
  rw [if_pos rfl] at hfind
  rw [find?, get_offer_self]
  exact hfind

theorem statementFault?_singleton (n : TableName) (row : n.Row) :
    statementFault? n [row] = n.refusal? row := by
  rw [statementFault?, List.findSome?_singleton, if_pos (by simp), Option.or_none]

/-- A single row that refers to what is there is stored, unless it cannot be sent, and its id is
told. -/
theorem ends_upsertOne {s : Store} (hs : s.Sound) {n : TableName} {row : n.Row}
    (hrefs : ∀ ref ∈ n.references row, s.Resolves ref) :
    Ends (fun fault cause => cause = fault) (upsertOne n row) s (n.refusal? row)
      fun id t => t = s.offer n [row] ∧ id = t.idOf n (n.key row) := by
  have hends : Ends _ (upsert n [row]) s _ _ := ends_upsert hs (by simpa using hrefs)
  rw [statementFault?_singleton] at hends
  unfold upsertOne Carrier.one
  apply hends.last
  rintro - told t ⟨rfl, rfl⟩
  rw [told_singleton]
  exact Ends.pure ⟨rfl, (idOf_eq (find?_offer_singleton hs n row)).symm⟩

/-- The id under which a row settles is one that its key has or may be given. -/
theorem Gives.of_settles {s : Store} {n : TableName} {row : n.Row} {entry : Entry n.Row}
    (h : (s.get n).Settles n.key n.refresh row entry) : s.Gives n (n.key row) entry.id := by
  unfold Gives
  split
  · next stored hfind => rw [h.of_find? hfind]
  · next hfind => exact (h.of_find?_none hfind).1

theorem map_key_told (s : Store) (n : TableName) (rows : List n.Row) :
    (s.told n rows).map (fun entry => n.key entry.row) = rows.map n.key :=
  Table.Keyed.map_key_offerAll n.keepsKey_refresh (s.get n) rows

theorem length_told (s : Store) (n : TableName) (rows : List n.Row) :
    (s.told n rows).length = rows.length := by
  simpa only [List.length_map] using congrArg List.length (s.map_key_told n rows)

section Told

variable {κ : Type} {s : Store} {n : TableName} {rows : List n.Row} {part : n.Row → κ}
  {wrap : κ → Key}

/-- A batch tells the parts of its rows that make their keys. -/
theorem map_part_told (hinj : Function.Injective wrap) (hkey : ∀ row, n.key row = wrap (part row)) :
    ((s.told n rows).map fun entry => part entry.row) = rows.map part := by
  have hwrap : n.key = wrap ∘ part := funext hkey
  have hkeys := s.map_key_told n rows
  rw [hwrap] at hkeys
  apply List.map_injective_iff.2 hinj
  rw [List.map_map, List.map_map]
  exact hkeys

theorem nodup_map_part_told (hinj : Function.Injective wrap)
    (hkey : ∀ row, n.key row = wrap (part row)) (hnodup : (rows.map n.key).Nodup) :
    ((s.told n rows).map fun entry => part entry.row).Nodup := by
  have hwrap : n.key = wrap ∘ part := funext hkey
  rw [map_part_told hinj hkey]
  apply List.Nodup.of_map wrap
  rwa [List.map_map, ← hwrap]

variable [Ord κ] [Std.TransOrd κ] [Std.LawfulEqOrd κ]

/-- A batch tells one id for each of its rows. -/
theorem size_idsBy_told (hinj : Function.Injective wrap)
    (hkey : ∀ row, n.key row = wrap (part row)) (hnodup : (rows.map n.key).Nodup) :
    (Entry.idsBy part (s.told n rows)).size = rows.length := by
  rw [Entry.size_idsBy (nodup_map_part_told hinj hkey hnodup), length_told]

variable [DecidableEq κ]

/-- A batch tells, by the part of the rows that makes their key, the ids under which the rows are
stored. -/
theorem getElem?_idsBy_told (hs : s.Sound) (hinj : Function.Injective wrap)
    (hkey : ∀ row, n.key row = wrap (part row)) (hone : Table.OneByKey n.key rows) (k : κ) :
    (Entry.idsBy part (s.told n rows))[k]? =
      if k ∈ rows.map part then some ((s.offer n rows).idOf n (wrap k)) else none := by
  have hparts : ((s.told n rows).map fun entry => part entry.row) = rows.map part :=
    map_part_told hinj hkey
  rw [← hparts]
  cases hid : (Entry.idsBy part (s.told n rows))[k]? with
  | some id =>
    obtain ⟨entry, hentry, rfl, rfl⟩ := Entry.exists_of_getElem?_idsBy hid
    rw [if_pos (List.mem_map_of_mem hentry)]
    obtain ⟨row, _, hstored, _⟩ :=
      (hs.keyed n).find?_of_mem_offerAll n.keepsKey_refresh n.absorbs_refresh hone hentry
    have hrow : n.key entry.row = n.key row := (Table.mem_of_find? hstored).2
    have hfind : (s.offer n rows).find? n (wrap (part entry.row)) = some entry := by
      rw [find?, get_offer_self, ← hkey, hrow]
      exact hstored
    rw [idOf_eq hfind]
  | none =>
    rw [if_neg]
    intro hk
    obtain ⟨entry, hentry, rfl⟩ := List.mem_map.1 hk
    obtain ⟨id, hfound⟩ := Entry.exists_getElem?_idsBy part hentry
    rw [hid] at hfound
    cases hfound

end Told

end BlockArchive.Store
