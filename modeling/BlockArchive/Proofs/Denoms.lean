import BlockArchive.Proofs.Changes
import BlockArchive.Proofs.Persist.Stages

/-!
# Denominations

Denominations are stored unless one of their texts cannot be sent. Of entries for one denomination
the last counts: the denomination takes its name and sign, keeps every unit that it has, and gains
those that it has not.

## Main definitions

- `DenomWithUnits.last?`, `DenomWithUnits.lastUnit?`, `IbcDenom.last?`: the entries that count
- `Store.withDenoms`, `Store.withIbcDenoms`: the store after denominations have been stored
- `View.upsertDenoms`, `View.upsertIbcDenoms`: what is told then

## Main statements

- `ends_upsertDenoms`, `ends_upsertIbcDenoms`: when denominations are stored
- `Store.view_withDenoms`, `Store.view_withIbcDenoms`: what is told of them
-/

namespace BlockArchive

open Persist (unsentFault?)

/-! ## The entries that count -/

namespace DenomWithUnits

/-- The last entry of a denomination. -/
def last? (entries : List DenomWithUnits) (base : String) : Option DenomWithUnits :=
  entries.reverse.find? fun entry => entry.denom.base = base

/-- The last unit of a name. -/
def lastUnit? (entry : DenomWithUnits) (name : String) : Option DenomUnit :=
  entry.units.reverse.find? fun unit => unit.name = name

theorem base_of_last? {entries : List DenomWithUnits} {base : String} {entry : DenomWithUnits}
    (h : last? entries base = some entry) : entry.denom.base = base := by
  simpa using List.find?_some h

theorem name_of_lastUnit? {entry : DenomWithUnits} {name : String} {unit : DenomUnit}
    (h : entry.lastUnit? name = some unit) : unit.name = name := by
  simpa using List.find?_some h

theorem mem_uniqueByBase {entries : List DenomWithUnits} {entry : DenomWithUnits} :
    entry ∈ uniqueByBase entries ↔ last? entries entry.denom.base = some entry :=
  OrderedMap.mem_values_ofList_map

theorem mem_uniqueUnits {entry : DenomWithUnits} {unit : DenomUnit} :
    unit ∈ entry.uniqueUnits ↔ entry.lastUnit? unit.name = some unit :=
  OrderedMap.mem_values_ofList_map

theorem nodup_bases (entries : List DenomWithUnits) :
    (((uniqueByBase entries).map (·.denom)).map (TableName.key .denoms)).Nodup := by
  have hbases := OrderedMap.nodup_values_ofList_map
    (fun entry : DenomWithUnits => entry.denom.base) entries
  have hkeys := hbases.map (f := Key.text) fun _ _ => Key.text.inj
  rw [List.map_map] at hkeys ⊢
  exact hkeys

end DenomWithUnits

/-- The entry takes the place of the old one, whose units stay. -/
def DenomWithUnits.over (old : Option DenomView) (entry : DenomWithUnits) : DenomView where
  name := entry.denom.name
  symbol := entry.denom.symbol
  units := fun name =>
    (old.bind fun view => view.units name).or ((entry.lastUnit? name).map (·.exponent))

/-- The last entry of a hash. -/
def IbcDenom.last? (denoms : List IbcDenom) (hash : String) : Option IbcDenom :=
  denoms.reverse.find? fun denom => denom.hash = hash

theorem IbcDenom.mem_uniqueByHash {denoms : List IbcDenom} {denom : IbcDenom} :
    denom ∈ uniqueByHash denoms ↔ last? denoms denom.hash = some denom :=
  OrderedMap.mem_values_ofList_map

theorem IbcDenom.nodup_hashes (denoms : List IbcDenom) :
    ((uniqueByHash denoms).map (TableName.key .ibcDenoms)).Nodup := by
  have hkeys := (OrderedMap.nodup_values_ofList_map IbcDenom.hash denoms).map (f := Key.text)
    fun _ _ => Key.text.inj
  rwa [List.map_map] at hkeys

namespace View

/-- The last entry of each denomination takes its place. -/
def upsertDenoms (view : View) (entries : List DenomWithUnits) : View :=
  { view with
    denoms := fun base =>
      match DenomWithUnits.last? entries base with
      | some entry => some (entry.over (view.denoms base))
      | none => view.denoms base }

/-- The last entry of each hash takes its place. -/
def upsertIbcDenoms (view : View) (denoms : List IbcDenom) : View :=
  { view with ibcDenoms := fun hash => (IbcDenom.last? denoms hash).or (view.ibcDenoms hash) }

end View

namespace Store

variable {s : Store}

/-- The rows of the units of denominations that are stored. -/
def unitRows (s : Store) (entries : List DenomWithUnits) : List DenomUnitRow :=
  entries.flatMap fun entry => entry.uniqueUnits.map fun unit =>
    { denom := s.idOf .denoms (.text entry.denom.base), exponent := unit.exponent, name := unit.name }

theorem mem_unitRows {s : Store} {entries : List DenomWithUnits} {row : DenomUnitRow} :
    row ∈ s.unitRows entries ↔ ∃ entry ∈ entries, ∃ unit ∈ entry.uniqueUnits,
      row = ⟨s.idOf .denoms (.text entry.denom.base), unit.exponent, unit.name⟩ := by
  simp only [unitRows, List.mem_flatMap, List.mem_map, eq_comm]

/-- The store with the denominations themselves. -/
def withBases (s : Store) (entries : List DenomWithUnits) : Store :=
  s.offer .denoms ((DenomWithUnits.uniqueByBase entries).map (·.denom))

/-- The store with the denominations and their units. -/
def withDenoms (s : Store) (entries : List DenomWithUnits) : Store :=
  (s.withBases entries).offerAbsent .denomUnits
    ((s.withBases entries).unitRows (DenomWithUnits.uniqueByBase entries))

/-- The store with the denominations that came over IBC. -/
def withIbcDenoms (s : Store) (denoms : List IbcDenom) : Store :=
  s.offer .ibcDenoms (IbcDenom.uniqueByHash denoms)

end Store

variable {s : Store}

/-- One of the texts of the denominations or of their units cannot be sent. -/
def denomFault? (entries : List DenomWithUnits) : Option QueryError :=
  let unique := DenomWithUnits.uniqueByBase entries
  (unsentFault? ((unique.map (·.denom)).flatMap (TableName.texts .denoms))).or
    (unsentFault? (unique.flatMap fun entry => entry.uniqueUnits.map (·.name)))

/-- One of the texts of the denominations cannot be sent. -/
def ibcDenomFault? (denoms : List IbcDenom) : Option QueryError :=
  unsentFault? ((IbcDenom.uniqueByHash denoms).flatMap (TableName.texts .ibcDenoms))

theorem batchFault?_denoms (entries : List DenomWithUnits) :
    Store.batchFault? .denoms ((DenomWithUnits.uniqueByBase entries).map (·.denom)) =
      unsentFault? (((DenomWithUnits.uniqueByBase entries).map (·.denom)).flatMap
        (TableName.texts .denoms)) := by
  rw [Persist.batchFault?_of_nodup (by decide) (DenomWithUnits.nodup_bases entries)]

theorem batchFault?_ibcDenoms (denoms : List IbcDenom) :
    Store.batchFault? .ibcDenoms (IbcDenom.uniqueByHash denoms) = ibcDenomFault? denoms := by
  rw [Persist.batchFault?_of_nodup (by decide) (IbcDenom.nodup_hashes denoms), ibcDenomFault?]

theorem exists_base (hs : s.Sound) {entries : List DenomWithUnits} {entry : DenomWithUnits}
    (hentry : entry ∈ DenomWithUnits.uniqueByBase entries) :
    ∃ stored, (s.withBases entries).find? .denoms (.text entry.denom.base) = some stored ∧
      (s.get .denoms).Settles (TableName.key .denoms) (TableName.refresh .denoms) entry.denom
        stored := by
  obtain ⟨stored, _, hfind, hsettles⟩ := (hs.keyed .denoms).find?_offerAll_of_mem
    TableName.denoms.keepsKey_refresh TableName.denoms.absorbs_refresh
    (.of_nodup (DenomWithUnits.nodup_bases entries)) (List.mem_map_of_mem hentry)
  exact ⟨stored, hfind, hsettles⟩

theorem sound_withBases (hs : s.Sound) (entries : List DenomWithUnits) :
    (s.withBases entries).Sound :=
  hs.offer (fun _ _ => trivial) fun _ _ _ href => by cases href

theorem findSome?_refusal?_unitRows (entries : List DenomWithUnits) :
    (s.unitRows entries).findSome? (TableName.refusal? .denomUnits) =
      unsentFault? (entries.flatMap fun entry => entry.uniqueUnits.map (·.name)) := by
  have hflat : (s.unitRows entries).flatMap (TableName.texts .denomUnits) =
      entries.flatMap fun entry => entry.uniqueUnits.map (·.name) := by
    simp only [Store.unitRows, List.flatMap_assoc, List.map_eq_flatMap, List.flatMap_singleton]
    rfl
  rw [Persist.findSome?_refusal? (by decide), hflat]

theorem mapM_unitRows {ids : Std.ExtTreeMap String Id} {entries : List DenomWithUnits}
    (h : ∀ entry ∈ entries, ids[entry.denom.base]? =
      some (s.idOf .denoms (.text entry.denom.base))) :
    ∃ rows, entries.mapM (DenomWithUnits.unitRows ids) = .ok rows ∧
      rows.flatten = s.unitRows entries := by
  refine ⟨_, Persist.mapM_ok (g := fun entry => entry.uniqueUnits.map fun unit =>
    { denom := s.idOf .denoms (.text entry.denom.base), exponent := unit.exponent,
      name := unit.name }) fun entry hentry => ?_, ?_⟩
  · rw [DenomWithUnits.unitRows, h entry hentry]
  · rw [Store.unitRows, List.flatMap_def]

theorem resolves_unitRows (hs : s.Sound) (entries : List DenomWithUnits) :
    ∀ row ∈ (s.withBases entries).unitRows (DenomWithUnits.uniqueByBase entries),
      ∀ ref ∈ TableName.references .denomUnits row, (s.withBases entries).Resolves ref := by
  intro row hrow ref href
  obtain ⟨entry, hentry, unit, _, rfl⟩ := Store.mem_unitRows.1 hrow
  cases List.mem_singleton.1 href
  obtain ⟨stored, hfind, _⟩ := exists_base hs hentry
  exact Store.resolves_idOf hfind _

/-- No unit of a batch comes twice. -/
theorem nodup_unitRows (hs : s.Sound) (entries : List DenomWithUnits) :
    (((s.withBases entries).unitRows (DenomWithUnits.uniqueByBase entries)).map
      (TableName.key .denomUnits)).Nodup := by
  rw [Store.unitRows, List.map_flatMap, List.nodup_flatMap]
  constructor
  · intro entry _
    have hnames := (OrderedMap.nodup_values_ofList_map DenomUnit.name entry.units).map
      (f := Key.named ((s.withBases entries).idOf .denoms (.text entry.denom.base)))
      fun _ _ h => (Key.named.inj h).2
    rw [List.map_map] at hnames ⊢
    exact hnames
  · have hbases := DenomWithUnits.nodup_bases entries
    rw [List.map_map, List.Nodup, List.pairwise_map] at hbases
    refine hbases.imp_of_mem fun {entry other} hentry hother hne => ?_
    -- different denominations have different ids
    intro key hkey hkey'
    obtain ⟨_, hrow, rfl⟩ := List.mem_map.1 hkey
    obtain ⟨unit, _, rfl⟩ := List.mem_map.1 hrow
    obtain ⟨_, hrow', hsame⟩ := List.mem_map.1 hkey'
    obtain ⟨unit', _, rfl⟩ := List.mem_map.1 hrow'
    obtain ⟨stored, hstored, _⟩ := exists_base hs hentry
    obtain ⟨stored', hstored', _⟩ := exists_base hs hother
    exact hne (Store.key_eq_of_idOf hstored hstored' (Key.named.inj hsame).1.symm)

theorem getElem?_idsBy_base (hs : s.Sound) {entries : List DenomWithUnits}
    {entry : DenomWithUnits} (hentry : entry ∈ DenomWithUnits.uniqueByBase entries) :
    (Entry.idsBy Denom.base (s.told .denoms
      ((DenomWithUnits.uniqueByBase entries).map (·.denom))))[entry.denom.base]? =
        some ((s.withBases entries).idOf .denoms (.text entry.denom.base)) := by
  have hinj : Function.Injective Key.text := fun _ _ => Key.text.inj
  rw [Store.getElem?_idsBy_told hs hinj (fun _ => rfl)
    (.of_nodup (DenomWithUnits.nodup_bases entries)), if_pos]
  · rfl
  · exact List.mem_map_of_mem (List.mem_map_of_mem hentry)

/-- Denominations are stored unless one of their texts cannot be sent. -/
theorem ends_upsertDenoms (hs : s.Sound) (entries : List DenomWithUnits) {session : Session}
    (ht : session.store = s) :
    Ends (fun cause failure => failure = .query cause) (upsertDenoms entries) session
      (denomFault? entries) fun _ after => after.store = s.withDenoms entries := by
  subst ht
  unfold upsertDenoms upsertDenomsBy
  refine Ends.last (Q := fun _ after => after.store = session.store.withDenoms entries)
    (WriteM.ends_transaction ?_) fun _ _ after hafter =>
      (WriteM.ends_log _).mono fun _ _ _ hlog => hlog.trans hafter
  -- the denominations
  have hbases : Ends _ (Store.upsertAll .denoms
      ((DenomWithUnits.uniqueByBase entries).map (·.denom))) session.store _ _ :=
    Store.ends_upsertAll hs (fun _ _ => trivial) fun row _ _ href => by cases href
  rw [batchFault?_denoms] at hbases
  apply (WriteM.ends_query_cause hbases).bind
  rintro - told middle ⟨rfl, hmiddle⟩
  -- their units
  obtain ⟨rows, hrows, hflat⟩ := mapM_unitRows fun _ => getElem?_idsBy_base hs
  have hunits := Store.ends_insertAllAbsent (sound_withBases hs entries) (n := .denomUnits)
    (fun _ _ => trivial) (resolves_unitRows hs entries)
  have hstored : session.store.withBases entries = middle.store := hmiddle.symm
  rw [findSome?_refusal?_unitRows, ← hflat, hstored] at hunits
  have hmade : Ends (fun cause failure => failure = .query cause)
      (WriteM.ofExcept ((DenomWithUnits.uniqueByBase entries).mapM (DenomWithUnits.unitRows
        (Entry.idsBy Denom.base (session.store.told .denoms
          ((DenomWithUnits.uniqueByBase entries).map (·.denom))))))) middle none
      fun units after => units = rows ∧ after = middle := by
    rw [hrows]
    exact WriteM.ends_ofExcept_ok ⟨rfl, rfl⟩
  apply hmade.next
  rintro _ _ ⟨rfl, rfl⟩
  apply (WriteM.ends_query_cause hunits).last
  rintro - _ after hafter
  refine Ends.pure ?_
  rw [hafter, hflat, Store.withDenoms, hstored]

/-- Denominations that came over IBC are stored unless one of their texts cannot be sent. -/
theorem ends_upsertIbcDenoms (hs : s.Sound) (denoms : List IbcDenom) {session : Session}
    (ht : session.store = s) :
    Ends (fun cause failure => failure = .query cause) (upsertIbcDenoms denoms) session
      (ibcDenomFault? denoms) fun _ after => after.store = s.withIbcDenoms denoms := by
  subst ht
  unfold upsertIbcDenoms upsertIbcDenomsBy
  refine Ends.last (Q := fun _ after => after.store = session.store.withIbcDenoms denoms)
    (WriteM.ends_transaction ?_) fun _ _ after hafter =>
      (WriteM.ends_log _).mono fun _ _ _ hlog => hlog.trans hafter
  have hstored : Ends _ (Store.upsertAll .ibcDenoms (IbcDenom.uniqueByHash denoms))
      session.store _ _ :=
    Store.ends_upsertAll hs (fun _ _ => trivial) fun row _ _ href => by cases href
  rw [batchFault?_ibcDenoms] at hstored
  apply (WriteM.ends_query_cause hstored).mono
  rintro - told after ⟨-, hafter⟩
  exact hafter

/-! ## What is told of denominations -/

namespace Store

/-- Under a denomination that is not there is no unit. -/
theorem Sound.find?_unit_eq_none (hs : s.Sound) {id : Id} (hid : id ∉ s.denoms.rows)
    (name : String) : s.find? .denomUnits (.named id name) = none := by
  cases hfind : s.find? .denomUnits (.named id name) with
  | none => rfl
  | some entry =>
    obtain ⟨hmem, hkey⟩ := mem_of_find? hfind
    have hdenom : entry.row.denom = id := (Key.named.inj hkey).1
    have hthere := hs.resolves .denomUnits entry hmem _ List.mem_cons_self
    rw [hdenom] at hthere
    exact absurd hthere hid

/-- The units of a denomination after a batch: those it had, and those that it gains. -/
theorem find?_unit_withDenoms (hs : s.Sound) (entries : List DenomWithUnits) (id : Id)
    (name : String) :
    ((s.withDenoms entries).find? .denomUnits (.named id name)).map (·.row.exponent) =
      ((s.find? .denomUnits (.named id name)).map (·.row.exponent)).or
        ((((s.withBases entries).unitRows (DenomWithUnits.uniqueByBase entries)).find?
          fun row => TableName.key .denomUnits row = .named id name).map (·.exponent)) := by
  have hunits := (hs.keyed .denomUnits).find?_offerAll_stored
    ((s.withBases entries).unitRows (DenomWithUnits.uniqueByBase entries)) (.named id name)
  have hmap := congrArg (Option.map DenomUnitRow.exponent) hunits
  rw [Option.map_map, Option.map_or, Option.map_map] at hmap
  exact hmap

theorem exists_entry_of_unitRow (hs : s.Sound) {entries : List DenomWithUnits} {base name : String}
    {stored : Entry Denom} (hstored : (s.withBases entries).find? .denoms (.text base) = some stored)
    {row : DenomUnitRow}
    (hrow : row ∈ (s.withBases entries).unitRows (DenomWithUnits.uniqueByBase entries))
    (hkey : TableName.key .denomUnits row = .named stored.id name) :
    ∃ entry unit, DenomWithUnits.last? entries base = some entry ∧
      entry.lastUnit? name = some unit ∧ row.exponent = unit.exponent := by
  obtain ⟨entry, hentry, unit, hunit, rfl⟩ := mem_unitRows.1 hrow
  obtain ⟨hid, hname⟩ := Key.named.inj hkey
  obtain ⟨other, hother, _⟩ := exists_base hs hentry
  rw [← idOf_eq hstored] at hid
  have hbase : entry.denom.base = base := Key.text.inj (key_eq_of_idOf hother hstored hid)
  subst hbase
  subst hname
  exact ⟨entry, unit, DenomWithUnits.mem_uniqueByBase.1 hentry,
    DenomWithUnits.mem_uniqueUnits.1 hunit, rfl⟩

theorem find?_unitRows (hs : s.Sound) {entries : List DenomWithUnits} {base name : String}
    {stored : Entry Denom}
    (hstored : (s.withBases entries).find? .denoms (.text base) = some stored) :
    (((s.withBases entries).unitRows (DenomWithUnits.uniqueByBase entries)).find?
        fun row => TableName.key .denomUnits row = .named stored.id name).map (·.exponent) =
      (DenomWithUnits.last? entries base).bind fun entry =>
        (entry.lastUnit? name).map (·.exponent) := by
  cases hfind : ((s.withBases entries).unitRows (DenomWithUnits.uniqueByBase entries)).find?
      fun row => TableName.key .denomUnits row = .named stored.id name with
  | some row =>
    obtain ⟨entry, unit, hlast, hunit, hexponent⟩ := exists_entry_of_unitRow hs hstored
      (List.mem_of_find?_eq_some hfind) (by simpa using List.find?_some hfind)
    simp [hlast, hunit, hexponent]
  | none =>
    cases hlast : DenomWithUnits.last? entries base with
    | none => rfl
    | some entry =>
      cases hunit : entry.lastUnit? name with
      | none => simp [hunit]
      | some unit =>
        -- the unit would have a row
        have hbase := DenomWithUnits.base_of_last? hlast
        have hname := DenomWithUnits.name_of_lastUnit? hunit
        subst hbase
        subst hname
        have hentry := DenomWithUnits.mem_uniqueByBase.2 hlast
        have hrow := (mem_unitRows (s := s.withBases entries)).2
          ⟨entry, hentry, unit, DenomWithUnits.mem_uniqueUnits.2 hunit, rfl⟩
        have hfree := List.find?_eq_none.1 hfind _ hrow
        rw [idOf_eq hstored, decide_eq_true_eq] at hfree
        exact absurd rfl hfree

/-- A denomination that the batch brings keeps the units that it had. -/
theorem units_of_settles (hs : s.Sound) {denom : Denom} {stored : Entry Denom}
    (hsettles : (s.get .denoms).Settles (TableName.key .denoms) (TableName.refresh .denoms) denom
      stored) (name : String) :
    (s.find? .denomUnits (.named stored.id name)).map (·.row.exponent) =
      (s.view.denoms denom.base).bind fun view => view.units name := by
  cases hold : s.find? .denoms (.text denom.base) with
  | some old =>
    rw [hsettles.of_find? hold]
    simp only [view, hold, Option.map_some, Option.bind_some]
  | none =>
    -- its id is new, so no unit can have been below it
    have hnew := hs.not_mem_of_nextId_le (hsettles.of_find?_none hold).1
    simp [view, hold, hs.find?_unit_eq_none hnew]

theorem find?_base_of_free (hs : s.Sound) {entries : List DenomWithUnits} {base : String}
    (hlast : DenomWithUnits.last? entries base = none) :
    (s.withBases entries).find? .denoms (.text base) = s.find? .denoms (.text base) := by
  apply (hs.keyed .denoms).find?_offerAll_of_not_mem TableName.denoms.keepsKey_refresh
  intro row hrow hkey
  obtain ⟨entry, hentry, rfl⟩ := List.mem_map.1 hrow
  rw [DenomWithUnits.mem_uniqueByBase, show entry.denom.base = base from Key.text.inj hkey,
    hlast] at hentry
  cases hentry

theorem denoms_withDenoms (hs : s.Sound) (entries : List DenomWithUnits) (base : String) :
    (s.withDenoms entries).view.denoms base = (s.view.upsertDenoms entries).denoms base := by
  show ((s.withBases entries).find? .denoms (.text base)).map _ = _
  simp only [find?_unit_withDenoms hs, View.upsertDenoms]
  cases hlast : DenomWithUnits.last? entries base with
  | some entry =>
    have hbase := DenomWithUnits.base_of_last? hlast
    subst hbase
    obtain ⟨stored, hfind, hsettles⟩ := exists_base hs (DenomWithUnits.mem_uniqueByBase.2 hlast)
    have hrow : stored.row = entry.denom := hsettles.row_eq fun _ _ => rfl
    rw [hfind]
    simp only [Option.map_some, find?_unitRows hs hfind, hlast, Option.bind_some, hrow,
      units_of_settles hs hsettles]
    rfl
  | none =>
    have hsame := find?_base_of_free hs hlast
    rw [hsame]
    cases hfind : s.find? .denoms (.text base) with
    | none => simp only [view, hfind, Option.map_none]
    | some stored =>
      simp only [Option.map_some, find?_unitRows hs (hsame.trans hfind), hlast, Option.bind_none,
        Option.or_none, view, hfind]

theorem view_withDenoms (hs : s.Sound) (entries : List DenomWithUnits) :
    (s.withDenoms entries).view = s.view.upsertDenoms entries := by
  apply View.ext
  case denoms =>
    funext base
    exact denoms_withDenoms hs entries base
  case texts =>
    funext kind
    cases kind <;> rfl
  case marked =>
    funext pipeline
    cases pipeline <;> rfl
  all_goals rfl

theorem find?_ibcDenom_of_free (hs : s.Sound) {denoms : List IbcDenom} {hash : String}
    (hlast : IbcDenom.last? denoms hash = none) :
    (s.withIbcDenoms denoms).find? .ibcDenoms (.text hash) = s.find? .ibcDenoms (.text hash) := by
  apply (hs.keyed .ibcDenoms).find?_offerAll_of_not_mem TableName.ibcDenoms.keepsKey_refresh
  intro row hrow hkey
  rw [IbcDenom.mem_uniqueByHash, show row.hash = hash from Key.text.inj hkey, hlast] at hrow
  cases hrow

theorem view_withIbcDenoms (hs : s.Sound) (denoms : List IbcDenom) :
    (s.withIbcDenoms denoms).view = s.view.upsertIbcDenoms denoms := by
  apply View.ext
  case ibcDenoms =>
    funext hash
    show (((s.withIbcDenoms denoms).find? .ibcDenoms (.text hash)).map (·.row)) =
      (IbcDenom.last? denoms hash).or ((s.find? .ibcDenoms (.text hash)).map (·.row))
    cases hlast : IbcDenom.last? denoms hash with
    | some denom =>
      have hhash : denom.hash = hash := by simpa using List.find?_some hlast
      subst hhash
      obtain ⟨stored, _, hfind, hsettles⟩ := (hs.keyed .ibcDenoms).find?_offerAll_of_mem
        TableName.ibcDenoms.keepsKey_refresh TableName.ibcDenoms.absorbs_refresh
        (.of_nodup (IbcDenom.nodup_hashes denoms)) (IbcDenom.mem_uniqueByHash.2 hlast)
      have hfind : (s.withIbcDenoms denoms).find? .ibcDenoms (.text denom.hash) = some stored :=
        hfind
      rw [hfind, Option.map_some, hsettles.row_eq fun _ _ => rfl, Option.some_or]
    | none => rw [find?_ibcDenom_of_free hs hlast, Option.none_or]
  case texts =>
    funext kind
    cases kind <;> rfl
  case marked =>
    funext pipeline
    cases pipeline <;> rfl
  all_goals rfl

end Store

end BlockArchive
