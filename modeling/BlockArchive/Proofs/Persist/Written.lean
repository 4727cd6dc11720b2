import BlockArchive.Proofs.Persist.Placement
import BlockArchive.Proofs.Store.Naming

/-!
# What a block writes

The rows that a block brings to each table, with the ids that a store has for what they refer to,
and a store in which some of the tables have been written. As a table is written only when those
that its rows refer to have been, and is then left alone, the rows are the same in every store that
follows.

## Main definitions

- `Store.nameOf`, `Store.Names`: the ids of parents, and those that they have or may be given
- `Persist.written`: the rows that a block brings to each table
- `Persist.Fault.Tells`: the failures by which a fault may be told
- `Persist.Progress`: some of the tables have been written
- `Persist.Stored`: all of them have been written

## Main statements

- `Persist.Progress.write`: another table is written
- `Persist.Progress.settles`: what a written row has become
-/

namespace BlockArchive

open Persist

namespace Store

/-- The id of a transaction. -/
def txId (t : Store) (tx : Tx) : Id :=
  t.idOf .txes (.text tx.hash)

/-- The id of a message. -/
def messageId (t : Store) (tx : Tx) (message : Message) : Id :=
  t.idOf .messages (.slot ⟨t.txId tx, message.index⟩)

/-- The id of an event. -/
def eventId (t : Store) (tx : Tx) (message : Message) (event : Event) : Id :=
  t.idOf .events (.slot ⟨t.messageId tx message, event.index⟩)

/-- The id of a parent. -/
def nameOf (t : Store) : Parent → Id
  | .tx tx => t.txId tx
  | .message tx message => t.messageId tx message
  | .event tx message event => t.eventId tx message event

/-- The id of a shared text. -/
def textId (t : Store) (kind : ReferenceKind) (text : String) : Id :=
  t.idOf kind.table (.text text)

/-- The id that a parent has, or one that it may be given. -/
def Names (s : Store) : Parent → Id → Prop
  | .tx tx, id => s.Gives .txes (.text tx.hash) id
  | .message tx message, id =>
    ∃ txId, s.Gives .txes (.text tx.hash) txId ∧ s.Gives .messages (.slot ⟨txId, message.index⟩) id
  | .event tx message event, id =>
    ∃ txId messageId, s.Gives .txes (.text tx.hash) txId ∧
      s.Gives .messages (.slot ⟨txId, message.index⟩) messageId ∧
      s.Gives .events (.slot ⟨messageId, event.index⟩) id

end Store

namespace Persist

/-- The failures by which a fault may be told. The place that is claimed twice is told with the id
of the parent: the one it has, if it is stored, or else one that no row has ever had. -/
def Fault.Tells (s : Store) : Fault → Failure → Prop
  | refused cause, failure => failure = .query cause
  | unregistered kind text, failure => failure = .unregisteredReference kind text
  | repeated kind parent index, failure =>
    ∃ id, s.Names parent id ∧ failure = .duplicateIndex kind.entity (Slot.text ⟨id, index⟩)

/-- The rows that a block brings to each table, if `t` has the ids of what they refer to. -/
def written (block : Block) (txs : List Tx) (t : Store) : (n : TableName) → List n.Row
  | .blocks => [block.row .txs]
  | .addresses => (ReferenceData.collect txs).signers.toList
  | .txes => txs.map fun tx => {
      hash := tx.hash
      code := tx.code
      block := t.idOf .blocks (.slot (block.row .txs).slot)
      signer := tx.signer.map fun address => t.idOf .addresses (.text address) }
  | .messageTypes => (ReferenceData.collect txs).texts .messageType
  | .eventTypes => (ReferenceData.collect txs).texts .eventType
  | .attributeKeys => (ReferenceData.collect txs).texts .attributeKey
  | .messages =>
    inOrder MessageRow.slot
      (Level.messages.rows t.nameOf (t.textId .messageType) (messageFamilies txs))
  | .events =>
    inOrder EventRow.slot (Level.events.rows t.nameOf (t.textId .eventType) (eventFamilies txs))
  | .attributes =>
    inOrder AttributeRow.slot
      (Level.attributes.rows t.nameOf (t.textId .attributeKey) (attributeFamilies txs))
  | .chains | .failedBlocks | .failedEventBlocks | .denoms | .denomUnits | .ibcDenoms => []

theorem mem_written_block (block : Block) (txs : List Tx) (t : Store) :
    block.row .txs ∈ written block txs t .blocks :=
  List.mem_cons_self

theorem mem_written_address {block : Block} {txs : List Tx} {t : Store} {tx : Tx} (htx : tx ∈ txs)
    {address : String} (hsigner : tx.signer = some address) :
    address ∈ written block txs t .addresses := by
  rw [written, Std.ExtTreeSet.mem_toList, ReferenceData.mem_signers_collect]
  exact ⟨tx, htx, hsigner⟩

theorem exists_written_text {block : Block} {txs : List Tx} {t : Store} {kind : ReferenceKind}
    {text : String} (htext : text ∈ (ReferenceData.collect txs).texts kind) :
    ∃ row ∈ written block txs t kind.table, kind.table.key row = .text text := by
  cases kind <;> exact ⟨text, htext, rfl⟩

/-- The tables whose ids the rows of a table are made of. -/
def sources : TableName → List TableName
  | .txes => [.blocks, .addresses]
  | .messages => [.txes, .messageTypes]
  | .events => [.txes, .messages, .eventTypes]
  | .attributes => [.txes, .messages, .events, .attributeKeys]
  | _ => []

/-- The rows are the same for stores that agree about the ids they are made of. -/
theorem written_congr {block : Block} {txs : List Tx} {t u : Store} {n : TableName}
    (h : ∀ m ∈ sources n, ∀ k, t.idOf m k = u.idOf m k) :
    written block txs t n = written block txs u n := by
  cases n
  case txes => simp only [written, h .blocks (by decide), h .addresses (by decide)]
  case messages =>
    have hnames : ∀ tx, t.nameOf (.tx tx) = u.nameOf (.tx tx) := fun tx => h .txes (by decide) _
    have htexts : t.textId .messageType = u.textId .messageType :=
      funext fun text => h .messageTypes (by decide) _
    simp only [written, Level.rows, messageFamilies, List.flatMap_map, hnames, htexts]
  case events =>
    have htxes : ∀ tx, t.txId tx = u.txId tx := fun tx => h .txes (by decide) _
    have hnames : ∀ tx message,
        t.nameOf (.message tx message) = u.nameOf (.message tx message) := by
      intro tx message
      simp only [Store.nameOf, Store.messageId, htxes, h .messages (by decide)]
    have htexts : t.textId .eventType = u.textId .eventType :=
      funext fun text => h .eventTypes (by decide) _
    simp only [written, Level.rows, eventFamilies, List.flatMap_assoc, List.flatMap_map, hnames,
      htexts]
  case attributes =>
    have htxes : ∀ tx, t.txId tx = u.txId tx := fun tx => h .txes (by decide) _
    have hnames : ∀ tx message event,
        t.nameOf (.event tx message event) = u.nameOf (.event tx message event) := by
      intro tx message event
      simp only [Store.nameOf, Store.eventId, Store.messageId, htxes, h .messages (by decide),
        h .events (by decide)]
    have htexts : t.textId .attributeKey = u.textId .attributeKey :=
      funext fun text => h .attributeKeys (by decide) _
    simp only [written, Level.rows, attributeFamilies, List.flatMap_assoc, List.flatMap_map, hnames,
      htexts]
  all_goals rfl

/-- The store without the marker of the block's height. -/
def cleared (block : Block) (s : Store) : Store :=
  s.set .failedBlocks ((s.get .failedBlocks).remove fun entry => entry.row = block.marker)

/-- The store after the rows of a table have been written. -/
def write (block : Block) (txs : List Tx) (n : TableName) (t : Store) : Store :=
  t.offer n (written block txs t n)

/-- In `t` the tables that are done have been written, starting from `s`. -/
structure Progress (block : Block) (txs : List Tx) (s t : Store) (done : List TableName) :
    Prop where
  sound : t.Sound
  /-- The rows of a table have been offered to it. -/
  tables : ∀ n ∈ done,
    t.get n = ((s.get n).offerAll n.key n.refresh (written block txs t n)).2
  /-- The other tables are as they were, but for the marker. -/
  rest : ∀ n, n ∉ done → t.get n = (cleared block s).get n
  oneByKey : ∀ n ∈ done, Table.OneByKey n.key (written block txs t n)
  markers : .failedBlocks ∉ done

/-- The tables that a block writes, the last one first. -/
abbrev storedTables : List TableName :=
  [.attributes, .events, .messages, .attributeKeys, .eventTypes, .messageTypes, .txes, .addresses,
    .blocks]

/-- All rows of the block have been written. -/
abbrev Stored (block : Block) (txs : List Tx) (s t : Store) : Prop :=
  Progress block txs s t storedTables

namespace Progress

variable {block : Block} {txs : List Tx} {s t : Store} {done : List TableName}

/-- What a written row has become. -/
theorem settles (h : Progress block txs s t done) (hs : s.Sound) {n : TableName} (hn : n ∈ done)
    {row : n.Row} (hrow : row ∈ written block txs t n) :
    ∃ entry, t.find? n (n.key row) = some entry ∧
      (s.get n).Settles n.key n.refresh row entry := by
  obtain ⟨entry, _, hstored, hsettles⟩ :=
    (hs.keyed n).find?_offerAll_of_mem n.keepsKey_refresh n.absorbs_refresh (h.oneByKey n hn) hrow
  refine ⟨entry, ?_, hsettles⟩
  rw [Store.find?, h.tables n hn]
  exact hstored

theorem exists_text (h : Progress block txs s t done) (hs : s.Sound) {kind : ReferenceKind}
    (hkind : kind.table ∈ done) {text : String}
    (htext : text ∈ (ReferenceData.collect txs).texts kind) :
    ∃ entry, t.find? kind.table (.text text) = some entry := by
  obtain ⟨row, hrow, hkey⟩ := exists_written_text htext
  obtain ⟨entry, hfind, _⟩ := h.settles hs hkind hrow
  exact ⟨entry, hkey ▸ hfind⟩

theorem find?_of_free (h : Progress block txs s t done) (hs : s.Sound) {n : TableName}
    (hn : n ∈ done)
    {k : Key} (hfree : ∀ row ∈ written block txs t n, n.key row ≠ k) :
    t.find? n k = s.find? n k := by
  rw [Store.find?, h.tables n hn]
  exact (hs.keyed n).find?_offerAll_of_not_mem n.keepsKey_refresh hfree

/-- The keys that are stored once a table is written are those before and those that are written. -/
theorem isSome_find? (h : Progress block txs s t done) (hs : s.Sound) {n : TableName}
    (hn : n ∈ done)
    (k : Key) :
    (t.find? n k).isSome =
      ((s.find? n k).isSome || decide (k ∈ (written block txs t n).map n.key)) := by
  by_cases hk : k ∈ (written block txs t n).map n.key
  · obtain ⟨row, hrow, rfl⟩ := List.mem_map.1 hk
    obtain ⟨entry, hfind, _⟩ := h.settles hs hn hrow
    simp [hfind, hk]
  · rw [h.find?_of_free hs hn fun row hrow he => hk (List.mem_map.2 ⟨row, hrow, he⟩)]
    simp [hk]

theorem get_other (h : Progress block txs s t done) {n : TableName} (hn : n ∉ done)
    (hmarkers : n ≠ .failedBlocks) : t.get n = s.get n := by
  rw [h.rest n hn, cleared, Store.get_set_of_ne s _ hmarkers]

/-- The rows of a table whose rows are not made of those of `n` are the same when `n` is written. -/
theorem written_write {n m : TableName} (h : n ∉ sources m) :
    written block txs (write block txs n t) m = written block txs t m := by
  apply written_congr
  intro l hl k
  have hne : l ≠ n := fun he => h (he ▸ hl)
  exact Store.idOf_offer_of_ne t _ hne k

/-- Another table is written. -/
theorem write (h : Progress block txs s t done) {n : TableName} (hn : n ∉ done)
    (hmarkers : n ≠ .failedBlocks) (hsources : ∀ m ∈ n :: done, n ∉ sources m)
    (hwarranted : ∀ row ∈ written block txs t n, n.Warranted row)
    (hrefs : ∀ row ∈ written block txs t n, ∀ ref ∈ n.references row, t.Resolves ref)
    (hone : Table.OneByKey n.key (written block txs t n)) :
    Progress block txs s (Persist.write block txs n t) (n :: done) where
  sound := h.sound.offer hwarranted hrefs
  tables m hm := by
    rw [written_write (hsources m hm)]
    rcases List.mem_cons.1 hm with rfl | hm
    · rw [Persist.write, Store.get_offer_self, h.rest m hn, cleared,
        Store.get_set_of_ne s _ hmarkers]
    · have hne : m ≠ n := fun he => hn (he ▸ hm)
      rw [Persist.write, Store.get_offer_of_ne t _ hne]
      exact h.tables m hm
  rest m hm := by
    rw [List.mem_cons, not_or] at hm
    rw [Persist.write, Store.get_offer_of_ne t _ hm.1]
    exact h.rest m hm.2
  oneByKey m hm := by
    rw [written_write (hsources m hm)]
    rcases List.mem_cons.1 hm with rfl | hm
    · exact hone
    · exact h.oneByKey m hm
  markers hmem := by
    rcases List.mem_cons.1 hmem with he | hmem
    · exact hmarkers he.symm
    · exact h.markers hmem

end Progress

end Persist

end BlockArchive
