import BlockArchive.Proofs.Persist.Fault
import BlockArchive.Proofs.Store.Naming

/-!
# What a store tells

The contents of a store without its ids: whatever is named by an id is told by what it is. Two
stores that tell the same differ only in the ids that their rows happen to have.

## Main definitions

- `View`: what a store tells
- `Store.view`: what the rows of a store tell, following their references

## Main statements

- `Store.Sound.exists_row`: in a sound store every row that is named is there
- `Store.Sound.viewsBelow_of_gives`: what lies below the rows of a key
-/

namespace BlockArchive

/-- An attribute without ids. -/
structure AttributeView where
  key : String
  value : String

/-- An event without ids. -/
structure EventView where
  eventType : String
  attributes : Int64 → Option AttributeView

/-- A message without ids. -/
structure MessageView where
  messageType : String
  events : Int64 → Option EventView

/-- A transaction without ids. -/
structure TxView where
  code : Int32
  chain : String
  height : Int64
  signer : Option String
  messages : Int64 → Option MessageView

/-- A block without ids. -/
structure BlockView where
  time : Timestamp
  txIndexed : Bool
  eventsIndexed : Bool

/-- A denomination without ids. -/
structure DenomView where
  name : String
  symbol : String
  units : String → Option Int64

/-- What a store tells. -/
@[ext] structure View where
  /-- The names of the chains, by their texts. -/
  chains : String → Option String
  /-- The blocks by chain and height. -/
  blocks : String → Int64 → Option BlockView
  /-- The heights of each chain that a pipeline has to try again. -/
  marked : Pipeline → String → Int64 → Bool
  addresses : String → Bool
  /-- The shared texts of each kind. -/
  texts : ReferenceKind → String → Bool
  /-- The transactions by hash. -/
  txes : String → Option TxView
  /-- The denominations by their smallest units. -/
  denoms : String → Option DenomView
  /-- The denominations that came over IBC, by hash. -/
  ibcDenoms : String → Option IbcDenom

/-- The table of the markers of a pipeline. -/
@[reducible] def Pipeline.table : Pipeline → TableName
  | txs => .failedBlocks
  | events => .failedEventBlocks

namespace Store

variable {ν : Type}

/-- The text of a kind that an id names. -/
def textOf (s : Store) : ReferenceKind → Id → Option String
  | .messageType, id => s.messageTypes.rows[id]?
  | .eventType, id => s.eventTypes.rows[id]?
  | .attributeKey, id => s.attributeKeys.rows[id]?

theorem textOf_eq_some {s : Store} {kind : ReferenceKind} {id : Id} {text : String} :
    s.textOf kind id = some text ↔
      ∃ entry ∈ (s.get kind.table).entries,
        entry.id = id ∧ kind.table.key entry.row = .text text := by
  have htable : ∀ t : Table String, t.rows[id]? = some text ↔
      ∃ entry ∈ t.entries, entry.id = id ∧ Key.text entry.row = .text text := by
    intro t
    constructor
    · intro h
      exact ⟨⟨id, text⟩, Table.mem_entries.2 h, rfl, rfl⟩
    · rintro ⟨entry, hentry, rfl, hkey⟩
      rw [← Key.text.inj hkey]
      exact Table.mem_entries.1 hentry
  cases kind <;> exact htable _

/-- What lies below a row, by index. -/
def viewsBelow (s : Store) (n : TableName) (read : Entry n.Row → Option ν) (parent : Id) :
    Int64 → Option ν :=
  fun index => (s.find? n (.slot ⟨parent, index⟩)).bind read

/-- An attribute as the store tells it. -/
def attributeView (s : Store) (entry : Entry AttributeRow) : Option AttributeView :=
  (s.textOf .attributeKey entry.row.key).map fun key => { key, value := entry.row.value }

/-- An event as the store tells it. -/
def eventView (s : Store) (entry : Entry EventRow) : Option EventView :=
  (s.textOf .eventType entry.row.eventType).map fun eventType =>
    { eventType, attributes := s.viewsBelow .attributes s.attributeView entry.id }

/-- A message as the store tells it. -/
def messageView (s : Store) (entry : Entry MessageRow) : Option MessageView :=
  (s.textOf .messageType entry.row.messageType).map fun messageType =>
    { messageType, events := s.viewsBelow .events s.eventView entry.id }

/-- A transaction as the store tells it. -/
def txView (s : Store) (entry : Entry TxRow) : Option TxView := do
  let block ← s.blocks.rows[entry.row.block]?
  let chain ← s.chains.rows[block.chain]?
  let signer ← entry.row.signer.mapM fun id => s.addresses.rows[id]?
  return {
    code := entry.row.code
    chain := chain.chainId
    height := block.height
    signer
    messages := s.viewsBelow .messages s.messageView entry.id }

/-- What the rows of a store tell. -/
def view (s : Store) : View where
  chains chainId := (s.find? .chains (.text chainId)).map (·.row.name)
  blocks chainId height := do
    let chain ← s.find? .chains (.text chainId)
    let block ← s.find? .blocks (.slot ⟨chain.id, height⟩)
    return {
      time := block.row.time
      txIndexed := block.row.txIndexed
      eventsIndexed := block.row.eventsIndexed }
  marked pipeline chainId height :=
    ((s.find? .chains (.text chainId)).bind fun chain =>
      s.find? pipeline.table (.slot ⟨chain.id, height⟩)).isSome
  addresses address := (s.find? .addresses (.text address)).isSome
  texts kind text := (s.find? kind.table (.text text)).isSome
  txes hash := (s.find? .txes (.text hash)).bind s.txView
  denoms base :=
    (s.find? .denoms (.text base)).map fun denom => {
      name := denom.row.name
      symbol := denom.row.symbol
      units := fun name => (s.find? .denomUnits (.named denom.id name)).map (·.row.exponent) }
  ibcDenoms hash := (s.find? .ibcDenoms (.text hash)).map (·.row)

/-! ## Views of sound stores -/

/-- A row that is named by a reference of a stored row is there. -/
theorem Sound.exists_row {s : Store} (hs : s.Sound) {n : TableName} {entry : Entry n.Row}
    (hentry : entry ∈ (s.get n).entries) (ref : Reference) (href : ref ∈ n.references entry.row) :
    ∃ row, (s.get ref.target).rows[ref.id]? = some row := by
  have hmem := hs.resolves n entry hentry ref href
  rwa [Resolves, Std.ExtTreeMap.mem_iff_isSome_getElem?, Option.isSome_iff_exists] at hmem

/-- Below a row that is not there is nothing. -/
theorem Sound.find?_below_eq_none {s : Store} (hs : s.Sound) {α : Type} (L : Persist.Level α)
    {parent : Id} (hparent : (s.get L.above).nextId ≤ parent) (index : Int64) :
    s.find? L.table (.slot ⟨parent, index⟩) = none := by
  cases hfind : s.find? L.table (.slot ⟨parent, index⟩) with
  | none => rfl
  | some entry =>
    obtain ⟨hmem, hkey⟩ := mem_of_find? hfind
    rw [L.key_eq] at hkey
    obtain ⟨column, href⟩ := L.parent_ref entry.row
    rw [Key.slot.inj hkey] at href
    have hthere := hs.resolves L.table entry hmem _ href
    obtain ⟨above, habove, hid⟩ := Table.mem_rows_iff.1 hthere
    have hlt := (hs.keyed L.above).lt_nextId habove
    rw [hid] at hlt
    exact absurd hlt (Int.not_lt.2 hparent)

/-- What lies below a settled row is what lay below the stored row of its key, or nothing. -/
theorem Sound.viewsBelow_of_gives {s : Store} (hs : s.Sound) {α : Type} (L : Persist.Level α)
    {k : Key} {id : Id} (hid : s.Gives L.above k id) (read : Entry L.table.Row → Option ν) :
    s.viewsBelow L.table read id =
      fun index => (s.find? L.above k).bind fun stored =>
        s.viewsBelow L.table read stored.id index := by
  funext index
  unfold Gives at hid
  cases hfind : s.find? L.above k with
  | some stored =>
    simp only [hfind] at hid
    rw [hid]
    rfl
  | none =>
    simp only [hfind] at hid
    rw [viewsBelow, hs.find?_below_eq_none L hid]
    rfl

theorem Sound.exists_eventType {s : Store} (hs : s.Sound) {entry : Entry EventRow}
    (hentry : entry ∈ s.events.entries) :
    ∃ text, s.textOf .eventType entry.row.eventType = some text :=
  hs.exists_row (n := .events) hentry ⟨"message_event_type_id", .eventTypes, _⟩
    (by simp [TableName.references])

theorem Sound.exists_messageType {s : Store} (hs : s.Sound) {entry : Entry MessageRow}
    (hentry : entry ∈ s.messages.entries) :
    ∃ text, s.textOf .messageType entry.row.messageType = some text :=
  hs.exists_row (n := .messages) hentry ⟨"message_type_id", .messageTypes, _⟩
    (by simp [TableName.references])

theorem Sound.exists_attributeKey {s : Store} (hs : s.Sound) {entry : Entry AttributeRow}
    (hentry : entry ∈ s.attributes.entries) :
    ∃ text, s.textOf .attributeKey entry.row.key = some text :=
  hs.exists_row (n := .attributes) hentry ⟨"message_event_attribute_key_id", .attributeKeys, _⟩
    (by simp [TableName.references])

/-- What the view of an event holds below it is what is stored below it. -/
theorem Sound.attributes_of_eventView {s : Store} (hs : s.Sound) (k : Key) (index : Int64) :
    (((s.find? .events k).bind s.eventView).bind fun view => view.attributes index) =
      (s.find? .events k).bind fun stored =>
        s.viewsBelow .attributes s.attributeView stored.id index := by
  cases hfind : s.find? .events k with
  | none => rfl
  | some stored =>
    obtain ⟨text, htext⟩ := hs.exists_eventType (mem_of_find? hfind).1
    rw [Option.bind_some, eventView, htext]
    rfl

/-- What the view of a message holds below it is what is stored below it. -/
theorem Sound.events_of_messageView {s : Store} (hs : s.Sound) (k : Key) (index : Int64) :
    (((s.find? .messages k).bind s.messageView).bind fun view => view.events index) =
      (s.find? .messages k).bind fun stored =>
        s.viewsBelow .events s.eventView stored.id index := by
  cases hfind : s.find? .messages k with
  | none => rfl
  | some stored =>
    obtain ⟨text, htext⟩ := hs.exists_messageType (mem_of_find? hfind).1
    rw [Option.bind_some, messageView, htext]
    rfl

/-- What a stored transaction refers to is there, so its view is too. -/
theorem Sound.txView_eq {s : Store} (hs : s.Sound) {entry : Entry TxRow}
    (hentry : entry ∈ s.txes.entries) :
    ∃ block chain signer, s.blocks.rows[entry.row.block]? = some block ∧
      s.chains.rows[block.chain]? = some chain ∧
      (entry.row.signer.mapM fun id => s.addresses.rows[id]?) = some signer ∧
      s.txView entry = some {
        code := entry.row.code
        chain := chain.chainId
        height := block.height
        signer
        messages := s.viewsBelow .messages s.messageView entry.id } := by
  obtain ⟨block, hblock⟩ := hs.exists_row (n := .txes) hentry ⟨"block_id", .blocks, entry.row.block⟩
    List.mem_cons_self
  have hblockEntry : (⟨entry.row.block, block⟩ : Entry BlockRow) ∈ s.blocks.entries :=
    Table.mem_entries.2 hblock
  obtain ⟨chain, hchain⟩ := hs.exists_row (n := .blocks) hblockEntry
    ⟨"blockchain_id", .chains, block.chain⟩ List.mem_cons_self
  have hsigner :
      ∃ signer, (entry.row.signer.mapM fun id => s.addresses.rows[id]?) = some signer := by
    cases hid : entry.row.signer with
    | none => exact ⟨none, rfl⟩
    | some id =>
      obtain ⟨address, haddress⟩ := hs.exists_row (n := .txes) hentry
        ⟨"signer_address_id", .addresses, id⟩ (by simp [TableName.references, hid])
      have haddress : s.addresses.rows[id]? = some address := haddress
      exact ⟨some address, by rw [Option.mapM_some, haddress]; rfl⟩
  obtain ⟨signer, hsigner⟩ := hsigner
  have hblock : s.blocks.rows[entry.row.block]? = some block := hblock
  have hchain : s.chains.rows[block.chain]? = some chain := hchain
  refine ⟨block, chain, signer, hblock, hchain, hsigner, ?_⟩
  simp only [txView, hblock, hchain, hsigner, Option.bind_eq_bind, Option.bind_some]
  rfl

/-- What the view of a transaction holds below it is what is stored below it. -/
theorem Sound.messages_of_txView {s : Store} (hs : s.Sound) (k : Key) (index : Int64) :
    (((s.find? .txes k).bind s.txView).bind fun view => view.messages index) =
      (s.find? .txes k).bind fun stored =>
        s.viewsBelow .messages s.messageView stored.id index := by
  cases hfind : s.find? .txes k with
  | none => rfl
  | some stored =>
    obtain ⟨_, _, _, _, _, _, hview⟩ := hs.txView_eq (mem_of_find? hfind).1
    rw [Option.bind_some, hview]
    rfl

end Store

end BlockArchive
