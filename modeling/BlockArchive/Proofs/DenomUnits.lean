import BlockArchive.Proofs.Effects
import BlockArchive.Proofs.Store.Listing

/-!
# What storing denominations does

A batch of denominations follows three rules: of the entries of one denomination the last counts, of
the units of one name in an entry the last counts, but a unit that is stored wins over one that
comes. All that a batch changes is told by them, whatever the batch repeats and whatever is stored.

## Main definitions

- `DenomWithUnits.Accepted`: the store takes the texts of the entry
- `Store.unitsUnder`: the units of a denomination
- `DenomWithUnits.Adds`: the units of an entry that are new
- `Store.TakesDenoms`: a store takes in denominations with their units

## Main statements

- `Store.exists_added_units`: the units that a denomination gains
- `Store.takesDenoms_withDenoms`: what a batch does
- `Store.TakesDenoms.rows_again`: the same batch again changes no row
- `Store.Reachable.upsertDenoms_effect`: denominations that the store accepts are taken in
-/

namespace BlockArchive

open Persist (unsentFault? unsentFault?_eq_none)

/-! ## Entries that are accepted -/

namespace DenomWithUnits

/-- The store takes the texts of the entry. -/
def Accepted (entry : DenomWithUnits) : Prop :=
  (∀ text ∈ TableName.texts .denoms entry.denom, ¬ HasZero text) ∧
    ∀ unit ∈ entry.units, ¬ HasZero unit.name

instance (entry : DenomWithUnits) : Decidable entry.Accepted :=
  inferInstanceAs (Decidable (_ ∧ _))

theorem mem_of_mem_uniqueByBase {entries : List DenomWithUnits} {entry : DenomWithUnits}
    (h : entry ∈ uniqueByBase entries) : entry ∈ entries :=
  List.mem_reverse.1 (List.mem_of_find?_eq_some (mem_uniqueByBase.1 h))

theorem fault?_eq_none_of_accepted {entries : List DenomWithUnits}
    (h : ∀ entry ∈ entries, entry.Accepted) : denomFault? entries = none := by
  have hdenoms : unsentFault? (((uniqueByBase entries).map (·.denom)).flatMap
      (TableName.texts .denoms)) = none := by
    refine unsentFault?_eq_none.2 fun text htext => ?_
    obtain ⟨denom, hdenom, htext⟩ := List.mem_flatMap.1 htext
    obtain ⟨entry, hentry, rfl⟩ := List.mem_map.1 hdenom
    exact (h entry (mem_of_mem_uniqueByBase hentry)).1 text htext
  have hunits : unsentFault? ((uniqueByBase entries).flatMap fun entry =>
      entry.uniqueUnits.map (·.name)) = none := by
    refine unsentFault?_eq_none.2 fun text htext => ?_
    obtain ⟨entry, hentry, htext⟩ := List.mem_flatMap.1 htext
    obtain ⟨unit, hunit, rfl⟩ := List.mem_map.1 htext
    have hmem := List.mem_of_find?_eq_some (mem_uniqueUnits.1 hunit)
    exact (h entry (mem_of_mem_uniqueByBase hentry)).2 unit (List.mem_reverse.1 hmem)
  rw [denomFault?, hdenoms, hunits, Option.or_none]

end DenomWithUnits

/-- The unit that a row stores. -/
def DenomUnitRow.unit (row : DenomUnitRow) : DenomUnit where
  exponent := row.exponent
  name := row.name

variable {s t : Store} {entries : List DenomWithUnits} {base : String}

namespace Store

/-! ## The units of a denomination -/

/-- The units of a denomination, in the order in which they were stored. -/
def unitsUnder (s : Store) (base : String) : List (Entry DenomUnitRow) :=
  match s.find? .denoms (.text base) with
  | some denom => s.denomUnits.entries.filter fun unit => unit.row.denom = denom.id
  | none => []

theorem unitsUnder_eq {denom : Entry Denom} (h : s.find? .denoms (.text base) = some denom) :
    s.unitsUnder base = s.denomUnits.entries.filter fun unit => unit.row.denom = denom.id := by
  rw [unitsUnder, h]

theorem mem_unitsUnder {denom : Entry Denom} (h : s.find? .denoms (.text base) = some denom)
    {unit : Entry DenomUnitRow} :
    unit ∈ s.unitsUnder base ↔ unit ∈ s.denomUnits.entries ∧ unit.row.denom = denom.id := by
  rw [unitsUnder_eq h, List.mem_filter, decide_eq_true_eq]

/-- No unit is stored under a name of a denomination if the denomination has none of that name. -/
theorem find?_unit_eq_none_iff {denom : Entry Denom} (h : s.find? .denoms (.text base) = some denom)
    {name : String} : s.find? .denomUnits (.named denom.id name) = none ↔
      ∀ unit ∈ s.unitsUnder base, unit.row.name ≠ name := by
  rw [find?, Table.find?_eq_none]
  constructor
  · intro hfree unit hunit hname
    obtain ⟨hmem, hdenom⟩ := (mem_unitsUnder h).1 hunit
    exact hfree unit hmem (congr (congrArg Key.named hdenom) hname)
  · intro hfree unit hmem hkey
    obtain ⟨hdenom, hname⟩ := Key.named.inj hkey
    exact hfree unit ((mem_unitsUnder h).2 ⟨hmem, hdenom⟩) hname

/-- A denomination keeps its id, or gets one that no row ever had. -/
theorem id_of_withBases (hs : s.Sound) {denom : Entry Denom}
    (hdenom : (s.withBases entries).find? .denoms (.text base) = some denom) :
    (∃ old, s.find? .denoms (.text base) = some old ∧ denom.id = old.id) ∨
      s.find? .denoms (.text base) = none ∧ denom.id ∉ s.denoms.rows := by
  obtain ⟨hmem, hkey⟩ := mem_of_find? hdenom
  have hkeep := TableName.denoms.keepsKey_refresh
  let rows := (DenomWithUnits.uniqueByBase entries).map (·.denom)
  cases hold : s.find? .denoms (.text base) with
  | some old =>
    obtain ⟨holdMem, holdKey⟩ := mem_of_find? hold
    obtain ⟨kept, hkept, hid, hkeys⟩ :=
      (hs.keyed .denoms).exists_mem_offerAll hkeep rows holdMem
    have hfind := ((hs.keyed .denoms).offerAll hkeep rows).find?_eq_some.2
      ⟨hkept, hkeys.trans holdKey⟩
    have hsame : denom = kept := Option.some.inj (hdenom.symm.trans hfind)
    exact Or.inl ⟨old, rfl, hsame ▸ hid⟩
  | none =>
    refine Or.inr ⟨rfl, hs.not_mem_of_nextId_le (n := .denoms) (Int.not_lt.1 fun hlt => ?_)⟩
    -- under an id that had been given it would have been there before
    obtain ⟨old, holdMem, _, hkeys⟩ :=
      (hs.keyed .denoms).exists_of_mem_offerAll hkeep rows hmem hlt
    exact Table.find?_eq_none.1 hold old holdMem (hkeys.trans hkey)

/-- The denominations themselves bring no units. -/
theorem unitsUnder_withBases (hs : s.Sound) (entries : List DenomWithUnits) (base : String) :
    (s.withBases entries).unitsUnder base = s.unitsUnder base := by
  cases hdenom : (s.withBases entries).find? .denoms (.text base) with
  | none =>
    cases hold : s.find? .denoms (.text base) with
    | none => rw [unitsUnder, unitsUnder, hdenom, hold]
    | some old =>
      obtain ⟨holdMem, holdKey⟩ := mem_of_find? hold
      obtain ⟨kept, hkept, _, hkeys⟩ := (hs.keyed .denoms).exists_mem_offerAll
        TableName.denoms.keepsKey_refresh ((DenomWithUnits.uniqueByBase entries).map (·.denom))
        holdMem
      exact absurd (hkeys.trans holdKey) (Table.find?_eq_none.1 hdenom kept hkept)
  | some denom =>
    rw [unitsUnder_eq hdenom]
    rcases id_of_withBases hs hdenom with ⟨old, hold, hid⟩ | ⟨hold, hnew⟩
    · rw [unitsUnder_eq hold, hid]
      rfl
    · rw [unitsUnder, hold, List.filter_eq_nil_iff]
      intro unit hunit
      rw [decide_eq_true_eq]
      intro hid
      have hthere := hs.resolves .denomUnits unit hunit _ List.mem_cons_self
      exact hnew (hid ▸ hthere)

/-- The rows of a batch that belong to a denomination are the units that count of its last entry. -/
theorem mem_unitRows_iff (hs : s.Sound) {denom : Entry Denom}
    (hdenom : (s.withBases entries).find? .denoms (.text base) = some denom) {unit : DenomUnit} :
    ⟨denom.id, unit.exponent, unit.name⟩ ∈
        (s.withBases entries).unitRows (DenomWithUnits.uniqueByBase entries) ↔
      ∃ entry, DenomWithUnits.last? entries base = some entry ∧
        entry.lastUnit? unit.name = some unit := by
  constructor
  · intro hrow
    have hkey : TableName.key .denomUnits ⟨denom.id, unit.exponent, unit.name⟩ =
        .named denom.id unit.name := rfl
    obtain ⟨entry, last, hentry, hlast, hexponent⟩ := exists_entry_of_unitRow hs hdenom hrow hkey
    have hname := DenomWithUnits.name_of_lastUnit? hlast
    have hsame : last = unit := by
      cases last
      cases unit
      cases hname
      cases hexponent
      rfl
    exact ⟨entry, hentry, hsame ▸ hlast⟩
  · rintro ⟨entry, hentry, hunit⟩
    have hbase := DenomWithUnits.base_of_last? hentry
    subst hbase
    exact mem_unitRows.2 ⟨entry, DenomWithUnits.mem_uniqueByBase.2 hentry, unit,
      DenomWithUnits.mem_uniqueUnits.2 hunit, by rw [idOf_eq hdenom]⟩

/-- Units of one denomination have different names if they have different keys. -/
theorem nodup_names {units : List (Entry DenomUnitRow)} {id : Id}
    (hid : ∀ unit ∈ units, unit.row.denom = id)
    (h : (units.map fun unit => TableName.denomUnits.key unit.row).Nodup) :
    (units.map (·.row.name)).Nodup := by
  rw [List.Nodup, List.pairwise_map] at h ⊢
  refine h.imp_of_mem fun {unit other} hunit hother hne hname => hne ?_
  show Key.named unit.row.denom unit.row.name = Key.named other.row.denom other.row.name
  rw [hid unit hunit, hid other hother, hname]

/-- What a denomination gains are the rows of the batch that belong to it and have no row yet. -/
theorem exists_added_rows (hs : s.Sound) {denom : Entry Denom}
    (hdenom : (s.withBases entries).find? .denoms (.text base) = some denom) :
    ∃ added, (s.withDenoms entries).unitsUnder base = s.unitsUnder base ++ added ∧
      (added.map (·.row.name)).Nodup ∧
      ∀ unit, unit ∈ added.map (·.row.unit) ↔
        ⟨denom.id, unit.exponent, unit.name⟩ ∈
            (s.withBases entries).unitRows (DenomWithUnits.uniqueByBase entries) ∧
          s.find? .denomUnits (.named denom.id unit.name) = none := by
  have hnodup := nodup_unitRows hs entries
  obtain ⟨added, hentries, hadded⟩ := (hs.keyed .denomUnits).exists_added hnodup
  have hafter : (s.withDenoms entries).find? .denoms (.text base) = some denom := hdenom
  refine ⟨added.filter fun unit => unit.row.denom = denom.id, ?_, ?_, fun unit => ?_⟩
  · rw [unitsUnder_eq hafter, ← unitsUnder_withBases hs entries, unitsUnder_eq hdenom,
      ← List.filter_append]
    exact congrArg (List.filter _) hentries
  · have hrows : (added.map (·.row)).Sublist
        ((s.withBases entries).unitRows (DenomWithUnits.uniqueByBase entries)) :=
      hadded ▸ List.filter_sublist
    have hkeys := hnodup.sublist (hrows.map _)
    rw [List.map_map] at hkeys
    exact nodup_names (fun unit hunit => of_decide_eq_true (List.mem_filter.1 hunit).2)
      (hkeys.sublist (List.filter_sublist.map _))
  · have hmem : ⟨denom.id, unit.exponent, unit.name⟩ ∈ added.map (·.row) ↔
        ⟨denom.id, unit.exponent, unit.name⟩ ∈
            (s.withBases entries).unitRows (DenomWithUnits.uniqueByBase entries) ∧
          s.find? .denomUnits (.named denom.id unit.name) = none := by
      rw [hadded, List.mem_filter, Option.isNone_iff_eq_none]
      rfl
    refine Iff.trans ?_ hmem
    rw [List.mem_map, List.mem_map]
    constructor
    · rintro ⟨new, hnew, rfl⟩
      obtain ⟨hnew, hid⟩ := List.mem_filter.1 hnew
      refine ⟨new, hnew, ?_⟩
      rw [← of_decide_eq_true hid]
      rfl
    · rintro ⟨new, hnew, hrow⟩
      refine ⟨new, List.mem_filter.2 ⟨hnew, ?_⟩, ?_⟩
      · rw [hrow, decide_eq_true_eq]
      · rw [hrow]
        rfl

end Store

/-- The units `added` are those of the entry that are new beside the units `old`. -/
structure DenomWithUnits.Adds (entry : DenomWithUnits) (old added : List (Entry DenomUnitRow)) :
    Prop where
  /-- No two of them have the same name. -/
  nodup : (added.map (·.row.name)).Nodup
  /-- They are the last units of the names that the entry has and that none of the old ones has. -/
  mem_iff : ∀ unit, unit ∈ added.map (·.row.unit) ↔
    entry.lastUnit? unit.name = some unit ∧ ∀ other ∈ old, other.row.name ≠ unit.name

namespace Store

theorem exists_added_units (hs : s.Sound) {entry : DenomWithUnits}
    (hentry : DenomWithUnits.last? entries base = some entry) :
    ∃ added, (s.withDenoms entries).unitsUnder base = s.unitsUnder base ++ added ∧
      entry.Adds (s.unitsUnder base) added := by
  have hbase := DenomWithUnits.base_of_last? hentry
  subst hbase
  obtain ⟨denom, hdenom, _⟩ := exists_base hs (DenomWithUnits.mem_uniqueByBase.2 hentry)
  obtain ⟨added, hunits, hnodup, hmem⟩ := exists_added_rows hs hdenom
  refine ⟨added, hunits, hnodup, fun unit => ?_⟩
  have hfree : s.find? .denomUnits (.named denom.id unit.name) = none ↔
      ∀ other ∈ s.unitsUnder entry.denom.base, other.row.name ≠ unit.name := by
    rw [← unitsUnder_withBases hs entries]
    exact find?_unit_eq_none_iff hdenom
  rw [hmem, mem_unitRows_iff hs hdenom, hfree, hentry]
  simp only [Option.some.injEq, exists_eq_left']

/-- A denomination that has no entry keeps its units and gains none. -/
theorem unitsUnder_of_free (hs : s.Sound) (hbase : DenomWithUnits.last? entries base = none) :
    (s.withDenoms entries).unitsUnder base = s.unitsUnder base := by
  cases hdenom : (s.withBases entries).find? .denoms (.text base) with
  | none =>
    have hafter : (s.withDenoms entries).find? .denoms (.text base) = none := hdenom
    rw [unitsUnder, hafter, ← unitsUnder_withBases hs entries, unitsUnder, hdenom]
  | some denom =>
    obtain ⟨added, hunits, _, hmem⟩ := exists_added_rows hs hdenom
    have hnone : added.map (·.row.unit) = [] := by
      rw [List.eq_nil_iff_forall_not_mem]
      intro unit hunit
      obtain ⟨entry, hentry, _⟩ := (mem_unitRows_iff hs hdenom).1 ((hmem unit).1 hunit).1
      rw [hbase] at hentry
      cases hentry
    rw [hunits, List.map_eq_nil_iff.1 hnone, List.append_nil]

/-! ## What a batch does -/

/-- The store `t` is the store `s` with the denominations and their units taken in. -/
structure TakesDenoms (s : Store) (entries : List DenomWithUnits) (t : Store) : Prop where
  /-- A denomination has the name and the sign of its last entry, and keeps its id. -/
  denom : ∀ base entry, DenomWithUnits.last? entries base = some entry →
    ∃ id, t.find? .denoms (.text base) = some ⟨id, entry.denom⟩ ∧
      ∀ old, s.find? .denoms (.text base) = some old → id = old.id
  /-- It has the units that it had and those of its last entry that are new beside them. -/
  units : ∀ base entry, DenomWithUnits.last? entries base = some entry →
    ∃ added, t.unitsUnder base = s.unitsUnder base ++ added ∧
      entry.Adds (s.unitsUnder base) added
  /-- A denomination that has no entry stays as it is, and so do its units. -/
  others : ∀ base, DenomWithUnits.last? entries base = none →
    t.find? .denoms (.text base) = s.find? .denoms (.text base) ∧
      t.unitsUnder base = s.unitsUnder base
  /-- No other table changes. -/
  rest : ∀ n, n ≠ .denoms → n ≠ .denomUnits → t.get n = s.get n

theorem takesDenoms_withDenoms (hs : s.Sound) (entries : List DenomWithUnits) :
    s.TakesDenoms entries (s.withDenoms entries) where
  denom base entry hentry := by
    have hbase := DenomWithUnits.base_of_last? hentry
    subst hbase
    obtain ⟨stored, hstored, hsettles⟩ :=
      exists_base hs (DenomWithUnits.mem_uniqueByBase.2 hentry)
    have hrow : stored.row = entry.denom := hsettles.row_eq fun _ _ => rfl
    refine ⟨stored.id, hrow ▸ hstored, fun old hold => ?_⟩
    rw [hsettles.of_find? hold]
  units base entry hentry := exists_added_units hs hentry
  others base hbase := ⟨find?_base_of_free hs hbase, unitsUnder_of_free hs hbase⟩
  rest n hdenoms hunits :=
    (get_set_of_ne _ _ hunits).trans (get_set_of_ne s _ hdenoms)

namespace TakesDenoms

/-- The unit that a last entry has under a name is stored under it, or one that was there. -/
theorem exists_unit (h : s.TakesDenoms entries t) {entry : DenomWithUnits}
    (hentry : DenomWithUnits.last? entries base = some entry) {unit : DenomUnit}
    (hunit : entry.lastUnit? unit.name = some unit) :
    ∃ stored ∈ t.unitsUnder base, stored.row.name = unit.name := by
  obtain ⟨added, hunits, hadds⟩ := h.units base entry hentry
  rw [hunits]
  by_cases hold : ∃ old ∈ s.unitsUnder base, old.row.name = unit.name
  · obtain ⟨old, hold, hname⟩ := hold
    exact ⟨old, List.mem_append_left _ hold, hname⟩
  · have hnew : unit ∈ added.map (·.row.unit) :=
      (hadds.mem_iff unit).2 ⟨hunit, fun old hmem hname => hold ⟨old, hmem, hname⟩⟩
    obtain ⟨new, hmem', rfl⟩ := List.mem_map.1 hnew
    exact ⟨new, List.mem_append_right _ hmem', rfl⟩

/-- Denominations that have been taken in change no row when they come again. -/
theorem rows_again (h : s.TakesDenoms entries t) (ht : t.Sound) (n : TableName) :
    ((t.withDenoms entries).get n).rows = (t.get n).rows := by
  have hdenoms : (t.withBases entries).denoms.rows = t.denoms.rows := by
    apply (ht.keyed .denoms).rows_offerAll_of_stored TableName.denoms.keepsKey_refresh
    intro row hrow
    obtain ⟨entry, hentry, rfl⟩ := List.mem_map.1 hrow
    obtain ⟨id, hfind, _⟩ := h.denom _ entry (DenomWithUnits.mem_uniqueByBase.1 hentry)
    exact ⟨_, (mem_of_find? hfind).1, rfl, rfl⟩
  have hsame : (t.withBases entries).denoms.entries = t.denoms.entries := by
    rw [Table.entries, hdenoms, Table.entries]
  have hunits : (t.withDenoms entries).denomUnits.rows = t.denomUnits.rows := by
    apply (ht.keyed .denomUnits).rows_offerAll_of_stored TableName.denomUnits.keepsKey_stored
    intro row hrow
    obtain ⟨entry, hentry, unit, hunit, rfl⟩ := mem_unitRows.1 hrow
    have hlast := DenomWithUnits.mem_uniqueByBase.1 hentry
    obtain ⟨id, hfind, _⟩ := h.denom _ entry hlast
    obtain ⟨stored, hstored, hname⟩ :=
      h.exists_unit hlast (DenomWithUnits.mem_uniqueUnits.1 hunit)
    obtain ⟨hmem, hid⟩ := (mem_unitsUnder hfind).1 hstored
    refine ⟨stored, hmem, ?_, rfl⟩
    rw [idOf_congr (n := .denoms) hsame, idOf_eq hfind]
    show Key.named stored.row.denom stored.row.name = Key.named id unit.name
    rw [hid, hname]
  cases n with
  | denoms => exact hdenoms
  | denomUnits => exact hunits
  | _ => rfl

end TakesDenoms

/-- A call with denominations that the store accepts succeeds and stores them. -/
theorem next_upsertDenoms (hs : s.Sound) (haccepted : ∀ entry ∈ entries, entry.Accepted) :
    (Step.upsertDenoms entries).Succeeds s ∧
      (Step.upsertDenoms entries).next s = s.withDenoms entries := by
  have hsession : ({ store := s } : Session).store = s := rfl
  obtain ⟨hok, hstore⟩ := (Step.does_upsertDenoms entries).ends
    (ends_upsertDenoms hs entries hsession)
  have hfault := DenomWithUnits.fault?_eq_none_of_accepted haccepted
  obtain ⟨_, after, hafter, hnext⟩ := hstore hfault
  exact ⟨hok.2 hfault, hnext.trans hafter⟩

/-- Denominations with texts that the store accepts are taken in, whatever the list repeats and
whatever is stored, and the same call again succeeds and changes no row. -/
theorem Reachable.upsertDenoms_effect (h : s.Reachable)
    (haccepted : ∀ entry ∈ entries, entry.Accepted) :
    let t := (Step.upsertDenoms entries).next s
    (Step.upsertDenoms entries).Succeeds s ∧ s.TakesDenoms entries t ∧
      (Step.upsertDenoms entries).Succeeds t ∧
      ∀ n, (((Step.upsertDenoms entries).next t).get n).rows = (t.get n).rows := by
  intro t
  have ht : t.Sound := (Step.keeps_next _ s h.sound).1
  obtain ⟨hok, hnext⟩ := next_upsertDenoms h.sound haccepted
  obtain ⟨hokAgain, hagain⟩ := next_upsertDenoms ht haccepted
  have htakes : s.TakesDenoms entries ((Step.upsertDenoms entries).next s) := by
    rw [hnext]
    exact takesDenoms_withDenoms h.sound entries
  exact ⟨hok, htakes, hokAgain, fun n => by rw [hagain, htakes.rows_again ht]⟩

/-- A denomination comes twice, the second time under another name and with a unit twice and one
that is stored with another power. Its first entry brings nothing, not even the unit that only it has. -/
theorem Reachable.upsertDenoms_effect_of_repeated_base :
    let s := (Step.upsertDenoms [⟨⟨"uatom", "Atom", "ATOM"⟩, [⟨0, "uatom"⟩]⟩,
      ⟨⟨"uosmo", "Osmo", "OSMO"⟩, [⟨0, "uosmo"⟩]⟩]).next ∅
    let entries : List DenomWithUnits := [⟨⟨"uatom", "Old", "OLD"⟩, [⟨3, "matom"⟩]⟩,
      ⟨⟨"uatom", "Cosmos", "ATOM"⟩, [⟨6, "atom"⟩, ⟨9, "uatom"⟩, ⟨7, "atom"⟩]⟩]
    let t := (Step.upsertDenoms entries).next s
    s.TakesDenoms entries t ∧
      t.find? .denoms (.text "uatom") = some ⟨1, ⟨"uatom", "Cosmos", "ATOM"⟩⟩ ∧
      t.unitsUnder "uatom" = [⟨1, ⟨1, 0, "uatom"⟩⟩, ⟨3, ⟨1, 7, "atom"⟩⟩] := by
  intro s entries t
  have hs : s.Reachable := .step .empty _
  have haccepted : ∀ entry ∈ entries, entry.Accepted := by decide +kernel
  exact ⟨(hs.upsertDenoms_effect haccepted).2.1, by decide +kernel, by decide +kernel⟩

end Store

end BlockArchive
