import BlockArchive.Proofs.Persist.Below

/-!
# Storing a block again

A store holds a stored block when every row that storing it has left is still there. Storing the
block again then makes the same rows, level by level, as every id that they are made of is found
again; and offering the rows that are stored changes none of them.

## Main definitions

- `Persist.Holds`: the rows that storing a block has left are there

## Main statements

- `Persist.Holds.written_eq`: the rows of the block are the same
- `Persist.Holds.rows_eq`: storing the block again changes no row
-/

namespace BlockArchive

open Persist

namespace Persist

/-- Rows are the same where the parents and the texts have the same ids. -/
theorem Level.rows_congr {α : Type} (L : Level α) {families : List (Family α)}
    {name name' : Parent → Id} {textId textId' : String → Id}
    (hname : ∀ family ∈ families, name family.parent = name' family.parent)
    (htext : ∀ family ∈ families, ∀ a ∈ family.members, textId (L.text a) = textId' (L.text a)) :
    L.rows name textId families = L.rows name' textId' families := by
  apply List.flatMap_congr
  intro family hfamily
  apply List.map_congr_left
  intro a ha
  rw [hname family hfamily, htext family hfamily a ha]

/-- The rows that storing a block has left in `t` are in `u`, and its height is not marked. -/
structure Holds (block : Block) (txs : List Tx) (chain : Chain) (t u : Store) : Prop where
  chain : (⟨block.chain, chain⟩ : Entry Chain) ∈ u.chains.entries
  /-- The rows of the block, as they are in `t`. -/
  rows : ∀ n, ∀ row ∈ written block txs t n, ∀ entry, t.find? n (n.key row) = some entry →
    entry ∈ (u.get n).entries
  /-- The height is not marked. -/
  unmarked : u.find? .failedBlocks (.slot block.marker.slot) = none

variable {block : Block} {txs : List Tx} {chain : Chain} {s t u v : Store}

/-- Only the tables of a block have rows of it. -/
theorem mem_tables_of_written {n : TableName} {row : n.Row} (h : row ∈ written block txs t n) :
    n ∈ storedTables := by
  cases n <;> first | decide | cases h

theorem Stored.holds (h : Stored block txs s t) (hs : s.Sound)
    (hchain : s.chains.rows[block.chain]? = some chain) : Holds block txs chain t t where
  chain := by
    have hchains : t.chains = s.chains := h.rest .chains (by decide)
    rw [hchains]
    exact Table.mem_entries.2 hchain
  rows n row _ entry hfind := (Store.mem_of_find? hfind).1
  unmarked := by
    rw [Store.find?, h.rest .failedBlocks h.markers, cleared, Store.get_set_self,
      (hs.keyed .failedBlocks).find?_remove, Option.filter_eq_none_iff]
    intro entry hentry
    have hslot : entry.row.slot = block.marker.slot :=
      Key.slot.inj (Table.mem_of_find? hentry).2
    have hmarker : entry.row = block.marker := by
      cases hrow : entry.row
      rw [hrow] at hslot
      cases hslot
      rfl
    simp [hmarker]

namespace Holds

section Ids

variable (hs : s.Sound) (h : Stored block txs s t) (hu : u.Sound)
    (hholds : Holds block txs chain t u)

include hs h hu hholds

theorem find?_eq {n : TableName} {row : n.Row} (hrow : row ∈ written block txs t n) :
    u.find? n (n.key row) = t.find? n (n.key row) := by
  obtain ⟨entry, hfind, _⟩ := h.settles hs (mem_tables_of_written hrow) hrow
  rw [hfind, hu.find?_eq_some]
  exact ⟨hholds.rows n row hrow entry hfind, (Store.mem_of_find? hfind).2⟩

theorem idOf_eq {n : TableName} {row : n.Row} (hrow : row ∈ written block txs t n) :
    u.idOf n (n.key row) = t.idOf n (n.key row) := by
  rw [Store.idOf, Store.idOf, find?_eq hs h hu hholds hrow]

theorem txId_eq {tx : Tx} (htx : tx ∈ txs) : u.txId tx = t.txId tx :=
  idOf_eq hs h hu hholds (n := .txes) (List.mem_map_of_mem htx : _ ∈ written block txs t .txes)

theorem textId_eq {kind : ReferenceKind} {text : String}
    (htext : text ∈ (ReferenceData.collect txs).texts kind) :
    u.textId kind text = t.textId kind text := by
  obtain ⟨row, hrow, hkey⟩ := exists_written_text htext
  have hid := idOf_eq hs h hu hholds hrow
  rwa [hkey] at hid

/-- An entity of a level has the same id, as long as its parent has. -/
theorem idOf_member_eq {α : Type} (L : Level α) {known : List String} {families : List (Family α)}
    (hready : L.Ready known families s t) (hfault : L.fault? known families = none)
    (hwritten : written block txs t L.table =
      inOrder L.slot (L.rows t.nameOf (t.textId L.kind) families))
    {family : Family α} (hfamily : family ∈ families) {a : α} (ha : a ∈ family.members)
    (hname : u.nameOf family.parent = t.nameOf family.parent) :
    u.idOf L.table (.slot ⟨u.nameOf family.parent, L.index a⟩) =
      t.idOf L.table (.slot ⟨t.nameOf family.parent, L.index a⟩) := by
  have hid := idOf_eq hs h hu hholds
    ((L.mem_written hready hfault hwritten).2 ⟨family, hfamily, a, ha, rfl⟩)
  rw [L.key_eq, L.slot_row] at hid
  rw [hname, hid]

variable (hhashes : (txs.map (·.hash)).Nodup)
  (hfault : levelFault? (ReferenceData.collect txs) txs = none)

include hhashes hfault

theorem messageId_eq {tx : Tx} (htx : tx ∈ txs) {message : Message}
    (hmessage : message ∈ tx.messages) :
    u.messageId tx message = t.messageId tx message := by
  have hfamily : (⟨.tx tx, tx.messages⟩ : Family Message) ∈ messageFamilies txs :=
    List.mem_map_of_mem htx
  exact idOf_member_eq hs h hu hholds Level.messages (Stored.messages_ready h hs hhashes)
    (faults_eq_none hfault).1 rfl hfamily hmessage (txId_eq hs h hu hholds htx)

theorem eventId_eq {tx : Tx} (htx : tx ∈ txs) {message : Message} (hmessage : message ∈ tx.messages)
    {event : Event} (hevent : event ∈ message.events) :
    u.eventId tx message event = t.eventId tx message event := by
  have hfamily : (⟨.message tx message, message.events⟩ : Family Event) ∈ eventFamilies txs :=
    List.mem_flatMap.2 ⟨tx, htx, List.mem_map_of_mem hmessage⟩
  exact idOf_member_eq hs h hu hholds Level.events (Stored.events_ready hs h hhashes hfault)
    (faults_eq_none hfault).2.1 rfl hfamily hevent
    (messageId_eq hs h hu hholds hhashes hfault htx hmessage)

/-- The block makes the same rows. -/
theorem written_eq (n : TableName) : written block txs u n = written block txs t n := by
  obtain ⟨hmessages, hevents, hattributes⟩ := levelFault?_eq_none.1 hfault
  cases n
  case txes =>
    have hblock : u.idOf .blocks (.slot (block.row .txs).slot) =
        t.idOf .blocks (.slot (block.row .txs).slot) :=
      idOf_eq hs h hu hholds (mem_written_block block txs t)
    apply List.map_congr_left
    intro tx htx
    have hsigner : (tx.signer.map fun address => u.idOf .addresses (.text address)) =
        tx.signer.map fun address => t.idOf .addresses (.text address) := by
      apply Option.map_congr
      intro address haddress
      exact idOf_eq hs h hu hholds (n := .addresses) (mem_written_address htx haddress)
    rw [hblock, hsigner]
  case messages =>
    apply congrArg (inOrder MessageRow.slot)
    apply Level.messages.rows_congr
    · rw [forall_mem_messageFamilies]
      exact fun tx htx => txId_eq hs h hu hholds htx
    · rw [forall_mem_messageFamilies]
      exact fun tx htx message hmessage =>
        textId_eq hs h hu hholds ((hmessages tx htx).1 message hmessage)
  case events =>
    apply congrArg (inOrder EventRow.slot)
    apply Level.events.rows_congr
    · rw [forall_mem_eventFamilies]
      exact fun tx htx message hmessage => messageId_eq hs h hu hholds hhashes hfault htx hmessage
    · rw [forall_mem_eventFamilies]
      exact fun tx htx message hmessage event hevent =>
        textId_eq hs h hu hholds ((hevents tx htx message hmessage).1 event hevent)
  case attributes =>
    apply congrArg (inOrder AttributeRow.slot)
    apply Level.attributes.rows_congr
    · rw [forall_mem_attributeFamilies]
      exact fun tx htx message hmessage event hevent =>
        eventId_eq hs h hu hholds hhashes hfault htx hmessage hevent
    · rw [forall_mem_attributeFamilies]
      exact fun tx htx message hmessage event hevent detail hdetail =>
        textId_eq hs h hu hholds
          ((hattributes tx htx message hmessage event hevent).1 detail hdetail)
  all_goals rfl

/-- Offering the rows of the block again changes no row of a table, as long as those of the tables
are unchanged that the rows are made of. -/
theorem rows_eq_of_sources (hagain : Stored block txs u v) {n : TableName}
    (hn : n ∈ storedTables)
    (hsources : ∀ m ∈ sources n, (v.get m).rows = (u.get m).rows) :
    (v.get n).rows = (u.get n).rows := by
  have hsame : written block txs v n = written block txs t n := by
    rw [← written_eq hs h hu hholds hhashes hfault n]
    apply written_congr
    intro m hm k
    exact Store.idOf_congr (by rw [Table.entries, hsources m hm, Table.entries]) k
  rw [hagain.tables n hn, hsame]
  apply (hu.keyed n).rows_offerAll_of_stored n.keepsKey_refresh
  intro row hrow
  obtain ⟨entry, hfind, hsettles⟩ := h.settles hs hn hrow
  exact ⟨entry, hholds.rows n row hrow entry hfind, (Store.mem_of_find? hfind).2,
    hsettles.refresh_eq n.absorbs_refresh⟩

/-- Storing the block again changes no row. -/
theorem rows_eq (hagain : Stored block txs u v) (n : TableName) :
    (v.get n).rows = (u.get n).rows := by
  have hstep := fun {n} => rows_eq_of_sources hs h hu hholds hhashes hfault hagain (n := n)
  have hblocks := hstep (n := .blocks) (by decide) (by simp [sources])
  have haddresses := hstep (n := .addresses) (by decide) (by simp [sources])
  have hmessageTypes := hstep (n := .messageTypes) (by decide) (by simp [sources])
  have heventTypes := hstep (n := .eventTypes) (by decide) (by simp [sources])
  have hattributeKeys := hstep (n := .attributeKeys) (by decide) (by simp [sources])
  have htxes := hstep (n := .txes) (by decide) (by simp [sources, hblocks, haddresses])
  have hmessages := hstep (n := .messages) (by decide) (by simp [sources, htxes, hmessageTypes])
  have hevents := hstep (n := .events) (by decide)
    (by simp [sources, htxes, hmessages, heventTypes])
  have hattributes := hstep (n := .attributes) (by decide)
    (by simp [sources, htxes, hmessages, hevents, hattributeKeys])
  cases n
  case failedBlocks =>
    rw [hagain.rest .failedBlocks hagain.markers, cleared, Store.get_set_self]
    apply Table.rows_eq_of_entries
    intro entry
    rw [Table.mem_entries_remove]
    refine ⟨fun hmem => hmem.1, fun hmem => ⟨hmem, ?_⟩⟩
    have hfree := Table.find?_eq_none.1 hholds.unmarked entry hmem
    rw [decide_eq_false_iff_not]
    rintro hmarker
    exact hfree (by rw [hmarker]; rfl)
  case chains | failedEventBlocks | denoms | denomUnits | ibcDenoms =>
    rw [hagain.get_other (by decide) (by decide)]
  all_goals assumption

end Ids

end Holds

end Persist

end BlockArchive
