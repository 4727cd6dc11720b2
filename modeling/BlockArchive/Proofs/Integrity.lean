import BlockArchive.Proofs.Reachable
import BlockArchive.Schema.Statement
import BlockArchive.Wire.Store

/-!
# Integrity of the store

The statements of the schema promise which rows may share what and which rows must be there. A store
that is reached by a run of steps honours all of them, whatever the steps are and whether they
succeed.

## Main definitions

- `TableName.cell?`: what a row holds in a column
- `Store.Honours`: what a statement of the schema promises about the store

## Main statements

- `TableName.key_eq_of_cells`: rows that agree in the columns of the key index have one key
- `Store.Sound.honours`: a sound store honours the schema
- `Store.Reachable.integrity`: so does every store that is reached
-/

namespace BlockArchive

namespace TableName

/-- What a row holds in a column, as it is written. -/
def cell? (n : TableName) (row : n.Row) (column : String) : Option Json :=
  ((n.columns.map (·.name)).zip (n.rowToJson row)).lookup column

/-- Rows that agree in the columns of the index that keeps the keys unique have one key. -/
theorem key_eq_of_cells {n : TableName} {a b : n.Row}
    (h : ∀ column ∈ n.keyIndex.columns, n.cell? a column = n.cell? b column) :
    n.key a = n.key b := by
  cases n <;>
    simp_all [keyIndex, cell?, columns, rowToJson, Column.ref, key, List.lookup_cons, Json.ofInt64,
      BlockRow.slot, MessageRow.slot, EventRow.slot, AttributeRow.slot, MarkerRow.slot,
      Int64.toInt_inj]

/-- A row has a value in every column, `null` only where the column allows it, and a column that
refers to a table holds one of the references of the row. -/
theorem exists_cell {n : TableName} (row : n.Row) {column : Column} (h : column ∈ n.columns) :
    ∃ cell, n.cell? row column.name = some cell ∧ (column.required = true → cell ≠ .null) ∧
      ∀ target, column.target = some target →
        cell = .null ∨ ∃ id, cell = .int id ∧ ⟨column.name, target, id⟩ ∈ n.references row := by
  cases n <;> simp only [columns, Column.ref, List.mem_cons, List.not_mem_nil, or_false] at h
  case' addresses | messageTypes | eventTypes | attributeKeys => subst h
  case' chains | failedBlocks | failedEventBlocks => rcases h with rfl | rfl
  case' messages | events | denoms | denomUnits | ibcDenoms => rcases h with rfl | rfl | rfl
  case' attributes => rcases h with rfl | rfl | rfl | rfl
  case' blocks => rcases h with rfl | rfl | rfl | rfl | rfl
  case' txes =>
    rcases h with rfl | rfl | rfl | rfl
    -- the signer is the one column that may be empty
    case' inr.inr.inr => cases hsigner : row.signer
  all_goals
    simp [cell?, columns, rowToJson, Column.ref, List.lookup_cons, references, Json.ofInt64,
      Json.ofOption, *]

end TableName

namespace Store

/-- What a statement of the schema promises: a table has every id once, no column is empty that must
not be, and what a column refers to is there; the rows of a table differ in the columns of its
indexes that say so. -/
def Honours (s : Store) : SchemaStatement → Prop
  | .createTable n =>
    ((s.get n).entries.map (·.id)).Nodup ∧
      ∀ entry ∈ (s.get n).entries, ∀ column ∈ n.columns,
        ∃ cell, n.cell? entry.row column.name = some cell ∧
          (column.required = true → cell ≠ .null) ∧
          ∀ target, column.target = some target →
            cell = .null ∨ ∃ id, cell = .int id ∧ id ∈ (s.get target).rows
  | .createIndex n index =>
    index.unique = true →
      ∀ a ∈ (s.get n).entries, ∀ b ∈ (s.get n).entries,
        (∀ column ∈ index.columns, n.cell? a.row column = n.cell? b.row column) → a = b

theorem nodup_ids {ρ : Type} (t : Table ρ) : (t.entries.map (·.id)).Nodup := by
  have hids : (t.entries.map (·.id)) = t.rows.keys := by
    rw [Table.entries, List.map_map, ← Std.ExtTreeMap.map_fst_toList_eq_keys]
    rfl
  rw [hids]
  exact Std.ExtTreeMap.nodup_keys

/-- A sound store honours the whole schema. -/
theorem Sound.honours {s : Store} (hs : s.Sound) {statement : SchemaStatement}
    (h : statement ∈ schemaStatements) : s.Honours statement := by
  simp only [schemaStatements, List.mem_flatMap, List.mem_cons, List.mem_map] at h
  obtain ⟨n, _, rfl | ⟨index, hindex, rfl⟩⟩ := h
  · refine ⟨nodup_ids (s.get n), fun entry hentry column hcolumn => ?_⟩
    obtain ⟨cell, hcell, hrequired, htarget⟩ := n.exists_cell entry.row hcolumn
    refine ⟨cell, hcell, hrequired, fun target ht => ?_⟩
    rcases htarget target ht with hnull | ⟨id, hid, href⟩
    · exact Or.inl hnull
    · exact Or.inr ⟨id, hid, hs.resolves n entry hentry _ href⟩
  · intro hunique a ha b hb hcells
    rcases hindex with rfl | hother
    · exact (hs.keyed n).eq_of_key ha hb (TableName.key_eq_of_cells hcells)
    · -- no other index of a table keeps anything unique
      cases n <;> simp [TableName.otherIndexes] at hother
      subst hother
      cases hunique

/-- Every store that is reached honours the schema: no two rows share what an index keeps unique,
what a row refers to is there, every id lies below the next one of its table, and a pipeline has
seen to every block. -/
theorem Reachable.integrity {s : Store} (h : s.Reachable) :
    (∀ statement ∈ schemaStatements, s.Honours statement) ∧
      (∀ n, ∀ a ∈ (s.get n).entries, ∀ b ∈ (s.get n).entries, n.key a.row = n.key b.row → a = b) ∧
      (∀ n, ∀ entry ∈ (s.get n).entries, ∀ ref ∈ n.references entry.row, s.Resolves ref) ∧
      (∀ n, ∀ entry ∈ (s.get n).entries, entry.id < (s.get n).nextId) ∧
      ∀ entry ∈ s.blocks.entries, entry.row.txIndexed = true ∨ entry.row.eventsIndexed = true := by
  have hs := h.sound
  refine ⟨fun statement hstatement => hs.honours hstatement, ?_, hs.resolves, ?_, ?_⟩
  · intro n a ha b hb hkey
    exact (hs.keyed n).eq_of_key ha hb hkey
  · intro n entry hentry
    exact (hs.keyed n).lt_nextId hentry
  · intro entry hentry
    exact hs.warranted .blocks entry hentry

/-- A run that stores a block and marks another height. -/
theorem Reachable.integrity_of_block_and_marker :
    let s := (Step.markFailed .txs ⟨"a-1", "A"⟩ 9).next
      ((Step.persist ⟨1, 7, Instant.zero⟩
          [Tx.new "h1" 0 (some "alice")
            [⟨"send", 0, [⟨"transfer", 0, [⟨"amount", 0, "5"⟩]⟩]⟩]]).next
        ((Step.registerChain ⟨"a-1", "A"⟩).next ∅))
    s.attributes.entries = [⟨1, ⟨1, 1, 0, "5"⟩⟩] ∧ s.failedBlocks.entries = [⟨1, ⟨9, 1⟩⟩] ∧
      (∀ statement ∈ schemaStatements, s.Honours statement) ∧
      ∀ entry ∈ s.blocks.entries, entry.row.txIndexed = true ∨ entry.row.eventsIndexed = true := by
  intro s
  obtain ⟨hschema, _, _, _, hblocks⟩ := integrity (.step (.step (.step .empty _) _) _ : s.Reachable)
  exact ⟨by decide +kernel, by decide +kernel, hschema, hblocks⟩

end Store

end BlockArchive
