import BlockArchive.Proofs.Frame
import BlockArchive.Proofs.Marking
import BlockArchive.Proofs.Persist.Repeat

/-!
# Steps that have nothing to do with a block

A step spares a block if it neither stores nor marks its height, brings none of its transactions and
does not remove its chain. Such a step leaves every row that the block has left where it is: what it
offers lies elsewhere, as rows below different parents have different places, and so does what it
takes. After any run of such steps the block can be stored again, and no row changes.

## Main definitions

- `Step.Spares`: the step has nothing to do with a block
- `Persist.Level.Below`: the rows of a level lie below rows of the block

## Main statements

- `Persist.Holds.next`: a step that spares a block leaves its rows where they are
- `Store.Reachable.persist_again`: storing a block again changes no row
-/

namespace BlockArchive

open Persist

/-- The step has nothing to do with a block of a chain and its transactions. -/
def Step.Spares (block : Block) (txs : List Tx) (chain : Chain) : Step → Prop
  | persist other others =>
    ¬ (other.chain = block.chain ∧ other.height = block.height) ∧
      ∀ tx ∈ txs, ∀ tx' ∈ others, tx'.hash ≠ tx.hash
  | markEventsIndexed other => ¬ (other.chain = block.chain ∧ other.height = block.height)
  | markFailed .txs other height => ¬ (other.chainId = chain.chainId ∧ height = block.height)
  | removeChain chainId => chainId ≠ chain.chainId
  | migrate | registerChain _ | markFailed .events _ _ | upsertDenoms _ | upsertIbcDenoms _
  | setup _ _ => True

namespace Persist

variable {block other : Block} {txs others : List Tx} {chain : Chain} {s t u v : Store}

/-! ## Parents -/

/-- Every row of a level lies below a row of the level above that storing the block has left. -/
def Level.Below {α : Type} (L : Level α) (block : Block) (txs : List Tx) (t : Store) : Prop :=
  ∀ row ∈ written block txs t L.table, ∃ above ∈ written block txs t L.above, ∃ entry,
    t.find? L.above (L.above.key above) = some entry ∧ (L.slot row).parent = entry.id

section Below

variable (hs : s.Sound) (h : Stored block txs s t) (hhashes : (txs.map (·.hash)).Nodup)
  (hfault : levelFault? (ReferenceData.collect txs) txs = none)

include hs h hhashes hfault

theorem Stored.messages_below : Level.messages.Below block txs t := by
  intro row hrow
  rw [Level.messages.mem_written (Stored.messages_ready h hs hhashes)
    (faults_eq_none hfault).1 rfl] at hrow
  obtain ⟨family, hfamily, message, _, rfl⟩ := hrow
  obtain ⟨tx, htx, rfl⟩ := List.mem_map.1 hfamily
  obtain ⟨entry, hfind, _⟩ := h.settles_tx hs (by decide) htx
  exact ⟨_, List.mem_map_of_mem htx, entry, hfind, Store.idOf_eq hfind⟩

theorem Stored.events_below : Level.events.Below block txs t := by
  intro row hrow
  rw [Level.events.mem_written (Stored.events_ready hs h hhashes hfault) (faults_eq_none hfault).2.1
    rfl] at hrow
  obtain ⟨family, hfamily, event, _, rfl⟩ := hrow
  obtain ⟨tx, htx, hfamily⟩ := List.mem_flatMap.1 hfamily
  obtain ⟨message, hmessage, rfl⟩ := List.mem_map.1 hfamily
  have hready := Stored.messages_ready h hs hhashes
  have habove : (⟨.tx tx, tx.messages⟩ : Family Message) ∈ messageFamilies txs :=
    List.mem_map_of_mem htx
  obtain ⟨entry, hfind, _⟩ := Level.messages.settles_member hready (faults_eq_none hfault).1 hs h
    (by decide) rfl habove hmessage
  refine ⟨_, (Level.messages.mem_written hready (faults_eq_none hfault).1 rfl).2
    ⟨_, habove, message, hmessage, rfl⟩, entry, hfind, Store.idOf_eq hfind⟩

theorem Stored.attributes_below : Level.attributes.Below block txs t := by
  intro row hrow
  rw [Level.attributes.mem_written (Stored.attributes_ready hs h hhashes hfault)
    (faults_eq_none hfault).2.2 rfl] at hrow
  obtain ⟨family, hfamily, detail, _, rfl⟩ := hrow
  obtain ⟨tx, htx, hfamily⟩ := List.mem_flatMap.1 hfamily
  obtain ⟨message, hmessage, hfamily⟩ := List.mem_flatMap.1 hfamily
  obtain ⟨event, hevent, rfl⟩ := List.mem_map.1 hfamily
  have hready := Stored.events_ready hs h hhashes hfault
  have habove : (⟨.message tx message, message.events⟩ : Family Event) ∈ eventFamilies txs :=
    List.mem_flatMap.2 ⟨tx, htx, List.mem_map_of_mem hmessage⟩
  obtain ⟨entry, hfind, _⟩ := Level.events.settles_member hready (faults_eq_none hfault).2.1 hs h
    (by decide) rfl habove hevent
  refine ⟨_, (Level.events.mem_written hready (faults_eq_none hfault).2.1 rfl).2
    ⟨_, habove, event, hevent, rfl⟩, entry, hfind, Store.idOf_eq hfind⟩

end Below

/-! ## Steps that offer or take little -/

namespace Holds

variable {step : Step}

/-- Only the rows count. -/
theorem rollback (h : Holds block txs chain t u) (v : Store) :
    Holds block txs chain t (u.rollback v) where
  chain := h.chain
  rows n row hrow entry hfind := by
    rw [Store.get_rollback, Table.entries_rollback]
    exact h.rows n row hrow entry hfind
  unmarked := h.unmarked

theorem chain_next (h : Holds block txs chain t u) (hu : u.Sound)
    (htakes : ¬ step.Takes u .chains ⟨block.chain, chain⟩) :
    (⟨block.chain, chain⟩ : Entry Chain) ∈ (step.next u).chains.entries :=
  Step.preserves_next (Store.survives_mem (n := .chains) (fun _ _ _ => rfl) htakes) hu h.chain

theorem rows_next (h : Holds block txs chain t u) (hu : u.Sound)
    (hrows : ∀ n, ∀ row ∈ written block txs t n, ∀ entry, t.find? n (n.key row) = some entry →
      (∀ offered, step.Offers n offered → n.key offered = n.key entry.row →
        n.refresh entry.row offered = entry.row) ∧ ¬ step.Takes u n entry) :
    ∀ n, ∀ row ∈ written block txs t n, ∀ entry, t.find? n (n.key row) = some entry →
      entry ∈ ((step.next u).get n).entries := by
  intro n row hrow entry hfind
  obtain ⟨hoffers, htakes⟩ := hrows n row hrow entry hfind
  exact Step.preserves_next (Store.survives_mem hoffers htakes) hu (h.rows n row hrow entry hfind)

theorem unmarked_next (h : Holds block txs chain t u) (hu : u.Sound)
    (hoffers : ∀ row, step.Offers .failedBlocks row → row.slot ≠ block.marker.slot) :
    (step.next u).find? .failedBlocks (.slot block.marker.slot) = none :=
  Step.preserves_next (Store.survives_free (n := .failedBlocks) fun row hrow he =>
    hoffers row hrow (Key.slot.inj he)) hu h.unmarked

/-- A step that offers no row to the tables of a block and takes none leaves its rows where they
are. -/
theorem next_of_elsewhere (h : Holds block txs chain t u) (hu : u.Sound)
    (hoffers : ∀ n ∈ .failedBlocks :: storedTables, ∀ row, ¬ step.Offers n row)
    (htakes : ∀ n entry, ¬ step.Takes u n entry) : Holds block txs chain t (step.next u) where
  chain := h.chain_next hu (htakes _ _)
  rows := h.rows_next hu fun n row hrow entry _ =>
    ⟨fun offered hoffered => absurd hoffered
      (hoffers n (List.mem_cons_of_mem _ (mem_tables_of_written hrow)) offered),
      htakes n entry⟩
  unmarked := h.unmarked_next hu fun row hrow => absurd hrow (hoffers .failedBlocks (by decide) row)

theorem next_markEventsIndexed (h : Holds block txs chain t u) (hu : u.Sound)
    (hspares : (Step.markEventsIndexed other).Spares block txs chain) :
    Holds block txs chain t ((Step.markEventsIndexed other).next u) where
  chain := h.chain_next hu id
  rows := h.rows_next hu fun n row hrow entry hfind => by
    have htables := mem_tables_of_written hrow
    have hkey := (Store.mem_of_find? hfind).2
    refine ⟨fun offered hoffered he => ?_, ?_⟩
    · cases n <;> simp only [Step.Offers] at hoffered
      cases List.mem_singleton.1 hrow
      subst hoffered
      have hslot : (other.row .events).slot = (block.row .txs).slot := Key.slot.inj (he.trans hkey)
      exact absurd ⟨congrArg Slot.parent hslot, congrArg Slot.index hslot⟩ hspares
    · cases n <;> simp [Step.Takes] at htables ⊢
  unmarked := h.unmarked_next hu fun row hrow => by cases hrow

theorem next_markFailed (h : Holds block txs chain t u) (hu : u.Sound) {named : Chain}
    {height : Int64}
    (hspares : (Step.markFailed .txs named height).Spares block txs chain) :
    Holds block txs chain t ((Step.markFailed .txs named height).next u) where
  chain := h.chain_next hu id
  rows := h.rows_next hu fun n row hrow entry _ => by
    have htables := mem_tables_of_written hrow
    cases n <;> simp [Step.Offers, Step.Takes] at htables ⊢
  unmarked := by
    rcases Step.next_markFailed hu .txs named height with hmarked | ⟨v, hback⟩
    · rw [hmarked, Store.marked]
      have hsound := sound_registered hu named
      obtain ⟨entry, hfind⟩ := exists_registered hu named
      have hmarkers :
          (u.offer .chains [named]).find? .failedBlocks (.slot block.marker.slot) = none := by
        rw [Store.find?_offer_of_ne u _ (by decide)]
        exact h.unmarked
      rw [Store.offerAbsent, Store.find?, Store.get_set_self,
        (hsound.keyed .failedBlocks).find?_offerAll_of_not_mem (TableName.keepsKey_stored _)]
      · exact hmarkers
      · intro marker hmarker he
        cases List.mem_singleton.1 hmarker
        have hslot := Key.slot.inj he
        refine hspares ⟨?_, congrArg Slot.index hslot⟩
        -- the chain that is marked has the id of the block's chain, so it is that chain
        have hid : entry.id = block.chain := by
          rw [← Store.idOf_eq hfind]
          exact congrArg Slot.parent hslot
        obtain ⟨hmem, hkey⟩ := Store.mem_of_find? hfind
        have hkept : (⟨block.chain, chain⟩ : Entry Chain) ∈
            ((u.offer .chains [named]).get .chains).entries := by
          rw [Store.get_offer_self]
          exact (hu.keyed .chains).mem_offerAll_of_fixed (TableName.keepsKey_refresh _) h.chain
            fun _ _ _ => rfl
        have hsame := Table.eq_of_mem_entries hmem hkept hid
        rw [hsame] at hkey
        exact (Key.text.inj hkey).symm
    · rw [hback]
      exact h.unmarked

end Holds

/-! ## Storing another block -/

/-- The rows that another block writes have other keys. -/
def Apart (block : Block) (txs : List Tx) (t : Store) (other : Block) (others : List Tx) (v : Store)
    (n : TableName) : Prop :=
  ∀ row ∈ written block txs t n, ∀ row' ∈ written other others v n, n.key row' ≠ n.key row

/-- The rows that storing a block has left in a table are in `v`. -/
def Kept (block : Block) (txs : List Tx) (t v : Store) (n : TableName) : Prop :=
  ∀ row ∈ written block txs t n, ∀ entry, t.find? n (n.key row) = some entry →
    entry ∈ (v.get n).entries

/-- Rows below rows with other keys have other places. -/
theorem Level.apart {α : Type} (L : Level α) (ht : L.Below block txs t)
    (hv : L.Below other others v)
    (hkept : Kept block txs t v L.above) (habove : Apart block txs t other others v L.above) :
    Apart block txs t other others v L.table := by
  intro row hrow row' hrow' hkey
  obtain ⟨above, hmem, entry, hfind, hparent⟩ := ht row hrow
  obtain ⟨above', hmem', entry', hfind', hparent'⟩ := hv row' hrow'
  rw [L.key_eq, L.key_eq, Key.slot.injEq] at hkey
  have hid : entry'.id = entry.id := by rw [← hparent', hkey, hparent]
  have hsame := Table.eq_of_mem_entries (Store.mem_of_find? hfind').1
    (hkept above hmem entry hfind) hid
  apply habove above hmem above' hmem'
  rw [← (Store.mem_of_find? hfind').2, hsame, (Store.mem_of_find? hfind).2]

theorem Apart.kept {n : TableName} (hu : u.Sound) (h : Stored other others u v)
    (hrows : Kept block txs t u n) (hapart : Apart block txs t other others v n) :
    Kept block txs t v n := by
  intro row hrow entry hfind
  have hkey := (Store.mem_of_find? hfind).2
  have hold : u.find? n (n.key row) = some entry :=
    hu.find?_eq_some.2 ⟨hrows row hrow entry hfind, hkey⟩
  rw [← h.find?_of_free hu (mem_tables_of_written hrow) (hapart row hrow)] at hold
  exact (Store.mem_of_find? hold).1

section Other

variable (hs : s.Sound) (h : Stored block txs s t) (hhashes : (txs.map (·.hash)).Nodup)
  (hfault : levelFault? (ReferenceData.collect txs) txs = none)
  (hu : u.Sound) (hother : Stored other others u v) (hhashes' : (others.map (·.hash)).Nodup)
  (hfault' : levelFault? (ReferenceData.collect others) others = none)

include hs h hhashes hfault hu hother hhashes' hfault'

/-- Storing another block with other transactions leaves the rows of a block where they are. -/
theorem Holds.of_stored (hholds : Holds block txs chain t u)
    (hplace : ¬ (other.chain = block.chain ∧ other.height = block.height))
    (htxs : ∀ tx ∈ txs, ∀ tx' ∈ others, tx'.hash ≠ tx.hash) : Holds block txs chain t v where
  chain := by
    have hchains : v.chains = u.chains := hother.rest .chains (by decide)
    rw [hchains]
    exact hholds.chain
  rows := by
    have hapart : ∀ {n}, Apart block txs t other others v n → Kept block txs t v n :=
      fun {n} hn => hn.kept hu hother (hholds.rows n)
    -- the block and the transactions are others, and so is all that lies below them
    have hblocks : Apart block txs t other others v .blocks := by
      intro row hrow row' hrow' hkey
      cases List.mem_singleton.1 hrow
      cases List.mem_singleton.1 hrow'
      have hslot : (other.row .txs).slot = (block.row .txs).slot := Key.slot.inj hkey
      exact hplace ⟨congrArg Slot.parent hslot, congrArg Slot.index hslot⟩
    have htxes : Apart block txs t other others v .txes := by
      intro row hrow row' hrow' hkey
      obtain ⟨tx, htx, rfl⟩ := List.mem_map.1 hrow
      obtain ⟨tx', htx', rfl⟩ := List.mem_map.1 hrow'
      exact htxs tx htx tx' htx' (Key.text.inj hkey)
    have hmessages := Level.messages.apart (Stored.messages_below hs h hhashes hfault)
      (Stored.messages_below hu hother hhashes' hfault') (hapart htxes) htxes
    have hevents := Level.events.apart (Stored.events_below hs h hhashes hfault)
      (Stored.events_below hu hother hhashes' hfault') (hapart hmessages) hmessages
    have hattributes := Level.attributes.apart (Stored.attributes_below hs h hhashes hfault)
      (Stored.attributes_below hu hother hhashes' hfault') (hapart hevents) hevents
    intro n row hrow entry hfind
    have hentry := hholds.rows n row hrow entry hfind
    have hn := mem_tables_of_written hrow
    cases n
    case blocks => exact hapart hblocks row hrow entry hfind
    case txes => exact hapart htxes row hrow entry hfind
    case messages => exact hapart hmessages row hrow entry hfind
    case events => exact hapart hevents row hrow entry hfind
    case attributes => exact hapart hattributes row hrow entry hfind
    case addresses | messageTypes | eventTypes | attributeKeys =>
      exact hother.kept hu hn (fun _ _ => rfl) hentry
    all_goals cases hrow
  unmarked := by
    have hfree : (u.get .failedBlocks).find? (TableName.key .failedBlocks)
        (.slot block.marker.slot) = none := hholds.unmarked
    rw [Store.find?, hother.rest .failedBlocks hother.markers, cleared, Store.get_set_self,
      (hu.keyed .failedBlocks).find?_remove, hfree]
    rfl

end Other

theorem Holds.next_persist (hs : s.Sound) (h : Stored block (Tx.uniqueByHash txs) s t)
    (hfault : levelFault? (ReferenceData.collect (Tx.uniqueByHash txs))
      (Tx.uniqueByHash txs) = none)
    (hu : u.Sound) (hholds : Holds block (Tx.uniqueByHash txs) chain t u)
    (hspares : (Step.persist other others).Spares block txs chain) :
    Holds block (Tx.uniqueByHash txs) chain t ((Step.persist other others).next u) := by
  rcases Step.persist_cases hu other others with ⟨hnone, _, hother⟩ | ⟨_, _, _, _, _, v, hback⟩
  · have hfits := (fault?_eq_none.1 hnone).2
    refine Holds.of_stored hs h (Tx.nodup_hashes txs) hfault hu hother (Tx.nodup_hashes others)
      (levelFault?_eq_none.2 ⟨hfits.messages, hfits.events, hfits.attributes⟩) hholds hspares.1 ?_
    intro tx htx tx' htx'
    exact hspares.2 tx (Tx.mem_of_mem_uniqueByHash htx) tx' (Tx.mem_of_mem_uniqueByHash htx')
  · rw [hback]
    exact hholds.rollback v

/-! ## Removing another chain -/

/-- None of the ids is that of a row that storing the block has left. -/
def Outside (block : Block) (txs : List Tx) (t : Store) (n : TableName) (ids : List Id) : Prop :=
  ∀ row ∈ written block txs t n, ∀ entry, t.find? n (n.key row) = some entry → entry.id ∉ ids

/-- Of rows that are wanted by what they hold, none is of the block if no row of the block is
wanted. -/
theorem Outside.of_wanted {n : TableName} {wanted : n.Row → Bool} (hkept : Kept block txs t u n)
    (h : ∀ row ∈ written block txs t n, ∀ entry, t.find? n (n.key row) = some entry →
      wanted entry.row = false) : Outside block txs t n ((u.get n).idsWhere wanted) := by
  intro row hrow entry hfind hid
  obtain ⟨found, hfound, hid⟩ := List.mem_map.1 hid
  obtain ⟨hmem, hwanted⟩ := List.mem_filter.1 hfound
  rw [Table.eq_of_mem_entries hmem (hkept row hrow entry hfind) hid,
    h row hrow entry hfind] at hwanted
  cases hwanted

/-- What lies below rows outside lies outside. -/
theorem Level.parent_not_mem {α : Type} (L : Level α) (ht : L.Below block txs t) {ids : List Id}
    (habove : Outside block txs t L.above ids) {row : L.table.Row}
    (hrow : row ∈ written block txs t L.table) {entry : Entry L.table.Row}
    (hfind : t.find? L.table (L.table.key row) = some entry) : (L.slot entry.row).parent ∉ ids := by
  obtain ⟨above, hmem, aboveEntry, haboveFind, hparent⟩ := ht row hrow
  have hkey := (Store.mem_of_find? hfind).2
  rw [L.key_eq, L.key_eq, Key.slot.injEq] at hkey
  rw [hkey, hparent]
  exact habove above hmem aboveEntry haboveFind

section Removal

variable (hs : s.Sound) (h : Stored block txs s t) (hhashes : (txs.map (·.hash)).Nodup)
  (hfault : levelFault? (ReferenceData.collect txs) txs = none) (hholds : Holds block txs chain t u)

include hs h hholds

omit hs h in
theorem Holds.blocks_outside {removed : Id} (hremoved : removed ≠ block.chain) :
    Outside block txs t .blocks (u.blockIds removed) := by
  refine Outside.of_wanted (hholds.rows .blocks) fun row hrow entry hfind => ?_
  cases List.mem_singleton.1 hrow
  have hslot : entry.row.slot = (block.row .txs).slot := Key.slot.inj (Store.mem_of_find? hfind).2
  have hchain : entry.row.chain = block.chain := congrArg Slot.parent hslot
  rw [hchain]
  exact decide_eq_false hremoved.symm

theorem Holds.txes_outside {removed : Id} (hremoved : removed ≠ block.chain) :
    Outside block txs t .txes (u.txIds removed) := by
  refine Outside.of_wanted (hholds.rows .txes) fun row hrow entry hfind => ?_
  obtain ⟨stored, hstored, hsettles⟩ := h.settles hs (n := .txes) (by decide) hrow
  rw [hfind] at hstored
  cases hstored
  obtain ⟨tx, htx, rfl⟩ := List.mem_map.1 hrow
  obtain ⟨blockEntry, hblock, _⟩ := h.settles hs (by decide) (mem_written_block block txs t)
  have hid : entry.row.block = blockEntry.id := by
    rw [hsettles.row_eq fun _ _ => rfl]
    exact Store.idOf_eq hblock
  rw [hid]
  exact decide_eq_false
    (hholds.blocks_outside hremoved _ (mem_written_block block txs t) blockEntry hblock)

include hhashes hfault

/-- No row of a block goes with another chain. -/
theorem Holds.not_belongs {removed : Id} (hremoved : removed ≠ block.chain) {n : TableName}
    {row : n.Row} (hrow : row ∈ written block txs t n) {entry : Entry n.Row}
    (hfind : t.find? n (n.key row) = some entry) : ¬ u.Belongs removed n entry := by
  have htxes := hholds.txes_outside hs h hremoved
  have hmessages : Outside block txs t .messages (u.messageIds removed) :=
    Outside.of_wanted (hholds.rows .messages) fun row hrow entry hfind => decide_eq_false
      (Level.messages.parent_not_mem (Stored.messages_below hs h hhashes hfault) htxes hrow hfind)
  have hevents : Outside block txs t .events (u.eventIds removed) :=
    Outside.of_wanted (hholds.rows .events) fun row hrow entry hfind => decide_eq_false
      (Level.events.parent_not_mem (Stored.events_below hs h hhashes hfault) hmessages hrow hfind)
  have hattributes := Stored.attributes_below hs h hhashes hfault
  cases n
  case blocks => exact hholds.blocks_outside hremoved row hrow entry hfind
  case txes => exact htxes row hrow entry hfind
  case messages => exact hmessages row hrow entry hfind
  case events => exact hevents row hrow entry hfind
  case attributes => exact Level.attributes.parent_not_mem hattributes hevents hrow hfind
  case addresses | messageTypes | eventTypes | attributeKeys | denoms | denomUnits | ibcDenoms =>
    exact id
  all_goals cases hrow

theorem Holds.next_removeChain (hu : u.Sound) {chainId : String}
    (hspares : (Step.removeChain chainId).Spares block txs chain) :
    Holds block txs chain t ((Step.removeChain chainId).next u) := by
  have hremoved : ∀ removed, u.findChain? chainId = some removed → removed.id ≠ block.chain := by
    intro removed hfind hid
    obtain ⟨hmem, hkey⟩ := Table.mem_of_find? hfind
    rw [Table.eq_of_mem_entries hmem hholds.chain hid] at hkey
    exact hspares hkey.symm
  refine ⟨hholds.chain_next hu ?_, hholds.rows_next hu ?_, hholds.unmarked_next hu ?_⟩
  · rintro ⟨removed, hfind, hbelongs⟩
    exact hremoved removed hfind hbelongs.symm
  · intro n row hrow entry hfind
    refine ⟨fun offered hoffered => absurd hoffered (by simp [Step.Offers]), ?_⟩
    rintro ⟨removed, hchain, hbelongs⟩
    exact hholds.not_belongs hs h hhashes hfault (hremoved removed hchain) hrow hfind hbelongs
  · intro row hrow
    cases hrow

end Removal

/-! ## Runs -/

/-- A step that spares a block leaves its rows where they are. -/
theorem Holds.next (hs : s.Sound) (h : Stored block (Tx.uniqueByHash txs) s t)
    (hfault : levelFault? (ReferenceData.collect (Tx.uniqueByHash txs))
      (Tx.uniqueByHash txs) = none)
    (hu : u.Sound) (hholds : Holds block (Tx.uniqueByHash txs) chain t u) {step : Step}
    (hspares : step.Spares block txs chain) :
    Holds block (Tx.uniqueByHash txs) chain t (step.next u) := by
  cases step with
  | persist other others => exact hholds.next_persist hs h hfault hu hspares
  | markEventsIndexed other => exact hholds.next_markEventsIndexed hu hspares
  | removeChain chainId =>
    exact hholds.next_removeChain hs h (Tx.nodup_hashes txs) hfault hu hspares
  | markFailed pipeline named height =>
    cases pipeline with
    | txs => exact hholds.next_markFailed hu hspares
    | events =>
      refine hholds.next_of_elsewhere hu (fun n hn row => ?_) fun n _ => ?_
      · cases n <;> simp [Step.Offers] at hn ⊢
      · cases n <;> exact id
  | migrate | registerChain named | upsertDenoms entries | upsertIbcDenoms denoms
  | setup connection config =>
    refine hholds.next_of_elsewhere hu (fun n hn row => ?_) fun n _ => ?_
    · cases n <;> simp [Step.Offers] at hn ⊢
    · cases n <;> exact id

theorem Holds.after (hs : s.Sound) (h : Stored block (Tx.uniqueByHash txs) s t)
    (hfault : levelFault? (ReferenceData.collect (Tx.uniqueByHash txs))
      (Tx.uniqueByHash txs) = none)
    {steps : List Step} (hu : u.Sound) (hholds : Holds block (Tx.uniqueByHash txs) chain t u)
    (hspares : ∀ step ∈ steps, step.Spares block txs chain) :
    Holds block (Tx.uniqueByHash txs) chain t (u.after steps) := by
  induction steps generalizing u with
  | nil => exact hholds
  | cons step rest ih =>
    exact ih (step.keeps_next u hu).1
      (hholds.next hs h hfault hu (hspares step List.mem_cons_self))
      fun other hother => hspares other (List.mem_cons_of_mem _ hother)

end Persist

/-- After any run of steps that have nothing to do with a stored block it can be stored again, and
no row changes: all of them keep what they hold and their ids. -/
theorem Store.Reachable.persist_again {s : Store} (h : s.Reachable) {block : Block} {txs : List Tx}
    (hok : (Step.persist block txs).Succeeds s) {chain : Chain}
    (hchain : s.chains.rows[block.chain]? = some chain) {steps : List Step}
    (hspares : ∀ step ∈ steps, step.Spares block txs chain) :
    (Step.persist block txs).Succeeds (((Step.persist block txs).next s).after steps) ∧
      ∀ n, (((Step.persist block txs).next
        (((Step.persist block txs).next s).after steps)).get n).rows =
          ((((Step.persist block txs).next s).after steps).get n).rows := by
  have hstored := Step.stored_of_succeeds h.sound hok
  rw [Step.succeeds_persist_iff h.sound, fault?_eq_none] at hok
  obtain ⟨haccepted, hfits⟩ := hok
  have hfault := levelFault?_eq_none.2 ⟨hfits.messages, hfits.events, hfits.attributes⟩
  have hu := ((Store.Reachable.step h (.persist block txs)).after steps).sound
  have hholds := (hstored.holds h.sound hchain).after h.sound hstored hfault hstored.sound hspares
  -- whether the block fits depends on the store only for its chain
  have hagain : (Step.persist block txs).Succeeds
      (((Step.persist block txs).next s).after steps) := by
    rw [Step.succeeds_persist_iff hu, fault?_eq_none]
    exact ⟨haccepted, { hfits with chain := Table.mem_rows_iff.2 ⟨_, hholds.chain, rfl⟩ }⟩
  exact ⟨hagain, hholds.rows_eq h.sound hstored hu (Tx.nodup_hashes txs) hfault
    (Step.stored_of_succeeds hu hagain)⟩

/-- A block is stored again after its height has been marked on another chain, another block has
been stored and the other chain has been removed. The ids of the messages advance, and the messages
stay. -/
theorem Store.Reachable.persist_again_after_other_work :
    let s := (Step.registerChain ⟨"a-1", "A"⟩).next ∅
    let block : Block := ⟨1, 7, Instant.zero⟩
    let txs := [Tx.new "h1" 0 (some "alice") [⟨"send", 0, [⟨"transfer", 0, [⟨"amount", 0, "5"⟩]⟩]⟩]]
    let u := ((Step.persist block txs).next s).after [.markFailed .txs ⟨"b-1", "B"⟩ 7,
      .persist ⟨1, 8, Instant.zero⟩ [Tx.new "h2" 0 (some "alice") [⟨"send", 0, []⟩]],
      .removeChain "b-1"]
    let v := (Step.persist block txs).next u
    (Step.persist block txs).Succeeds u ∧ (∀ n, (v.get n).rows = (u.get n).rows) ∧
      v.messages.entries = [⟨1, ⟨1, 1, 0⟩⟩, ⟨2, ⟨2, 1, 0⟩⟩] ∧
      u.messages.nextId = 3 ∧ v.messages.nextId = 4 := by
  intro s block txs u v
  have hs : s.Reachable := .step .empty _
  have hok : (Step.persist block txs).Succeeds s := ⟨none, by decide +kernel⟩
  have hchain : s.chains.rows[block.chain]? = some ⟨"a-1", "A"⟩ := by decide +kernel
  have hspares : ∀ step ∈ [Step.markFailed .txs ⟨"b-1", "B"⟩ 7,
      .persist ⟨1, 8, Instant.zero⟩ [Tx.new "h2" 0 (some "alice") [⟨"send", 0, []⟩]],
      .removeChain "b-1"], step.Spares block txs ⟨"a-1", "A"⟩ := by
    simp [Step.Spares, block, txs, Tx.new, Tx.addMessage]
  obtain ⟨hagain, hrows⟩ := hs.persist_again hok hchain hspares
  exact ⟨hagain, hrows, by decide +kernel, by decide +kernel, by decide +kernel⟩

end BlockArchive
