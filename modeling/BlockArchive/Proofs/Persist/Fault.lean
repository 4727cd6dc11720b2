import BlockArchive.Persist.Block
import BlockArchive.Proofs.Store.Cut
import BlockArchive.Proofs.Survivors

/-!
# Faults of a block

Why a block cannot be stored can be told from the block, its transactions and the stored chains. The
faults count in the order in which the stages come: first those of the block, then those of the
shared texts, and then those of the messages, of the events and of the attributes, each level as a
whole.

## Main definitions

- `Persist.Parent`, `Persist.Family`: what decoded entities lie below, and those with one parent
- `Persist.Level`: what messages, events and attributes have in common
- `Persist.Fault`: why a block cannot be stored
- `Persist.fault?`: the fault that counts
- `Persist.Fits`, `Persist.Accepted`: what a block needs in order to be stored

## Main statements

- `Persist.Level.fault?_eq_none`: the levels without a fault
- `Persist.fault?_of_accepted`: the faults of a block whose texts and time can be sent
- `Persist.fault?_eq_none`: the blocks without a fault
-/

namespace BlockArchive

namespace ReferenceKind

/-- What the entities that use texts of the kind are called in failures. -/
def entity : ReferenceKind → String
  | messageType => "message"
  | eventType => "message event"
  | attributeKey => "message event attribute"

/-- The table of the texts of the kind. -/
@[reducible] def table : ReferenceKind → TableName
  | messageType => .messageTypes
  | eventType => .eventTypes
  | attributeKey => .attributeKeys

/-- The statements in which texts of the kind are sent. -/
def statements (kind : ReferenceKind) (texts : List String) : List (List String) :=
  cut kind.table.rowsPerStatement texts

theorem forall_mem_statements {kind : ReferenceKind} {texts : List String} {P : String → Prop} :
    (∀ part ∈ kind.statements texts, ∀ text ∈ part, P text) ↔ ∀ text ∈ texts, P text := by
  conv_rhs => rw [← flatten_cut kind.table.rowsPerStatement texts]
  simp only [statements, List.mem_flatten]
  constructor
  · rintro h text ⟨part, hpart, htext⟩
    exact h part hpart text htext
  · intro h part hpart text htext
    exact h text ⟨part, hpart, htext⟩

theorem sublist_of_mem_statements {kind : ReferenceKind} {texts part : List String}
    (h : part ∈ kind.statements texts) : part.Sublist texts :=
  sublist_of_mem_cut h

/-- Texts that are stored stay as they are. -/
theorem refresh_table (kind : ReferenceKind) (stored offered : kind.table.Row) :
    kind.table.refresh stored offered = stored := by
  cases kind <;> rfl

end ReferenceKind

/-- The texts of a kind, in the order of their keys. -/
def ReferenceData.texts (data : ReferenceData) : ReferenceKind → List String
  | .messageType => data.messageTypes.values
  | .eventType => data.eventTypes.values
  | .attributeKey => data.attributeKeys.values

namespace Persist

/-- What a decoded entity lies below. -/
inductive Parent where
  /-- A transaction, below which messages lie. -/
  | tx (tx : Tx)
  /-- A message, below which events lie. -/
  | message (tx : Tx) (message : Message)
  /-- An event, below which attributes lie. -/
  | event (tx : Tx) (message : Message) (event : Event)

/-- The entities that lie below one parent. -/
structure Family (α : Type) where
  parent : Parent
  /-- Those below it, in their order. -/
  members : List α

/-- The messages of each transaction. -/
def messageFamilies (txs : List Tx) : List (Family Message) :=
  txs.map fun tx => ⟨.tx tx, tx.messages⟩

/-- The events of each message. -/
def eventFamilies (txs : List Tx) : List (Family Event) :=
  txs.flatMap fun tx => tx.messages.map fun message => ⟨.message tx message, message.events⟩

/-- The attributes of each event. -/
def attributeFamilies (txs : List Tx) : List (Family Attribute) :=
  txs.flatMap fun tx =>
    tx.messages.flatMap fun message =>
      message.events.map fun event => ⟨.event tx message event, event.attributes⟩

/-- Why a block cannot be stored. -/
inductive Fault where
  /-- The store refuses a statement. -/
  | refused (cause : QueryError)
  /-- An entity uses a text that is not brought along. -/
  | unregistered (kind : ReferenceKind) (text : String)
  /-- Two of those below a parent claim one index. -/
  | repeated (kind : ReferenceKind) (parent : Parent) (index : Int64)

/-- The failure by which a fault is told, given the ids of the parents. -/
def Fault.failure (name : Parent → Id) : Fault → Failure
  | refused cause => .query cause
  | unregistered kind text => .unregisteredReference kind text
  | repeated kind parent index => .duplicateIndex kind.entity (Slot.text ⟨name parent, index⟩)

/-! ## Levels -/

/-- What messages, events and attributes have in common: each lies below a parent, has an index
there and uses a text, and is stored in a table where its place is its key. -/
structure Level (α : Type) where
  kind : ReferenceKind
  table : TableName
  /-- The table of the parents. -/
  above : TableName
  /-- The text that an entity uses. -/
  text : α → String
  /-- The place among those with the same parent. -/
  index : α → Int64
  slot : table.Row → Slot
  /-- The row of an entity, given the ids of the parent and of the text. -/
  row : (parent text : Id) → α → table.Row
  /-- The row of an entity is in its place. -/
  slot_row : ∀ parent text a, slot (row parent text a) = ⟨parent, index a⟩
  key_eq : ∀ row, table.key row = .slot (slot row)
  /-- A row refers to the parent in whose place it is. -/
  parent_ref : ∀ row, ∃ column, ⟨column, above, (slot row).parent⟩ ∈ table.references row
  /-- A row refers to the parent and to the text, and to nothing else. -/
  target_row : ∀ parent text a, ∀ ref ∈ table.references (row parent text a),
    ref.target = above ∧ ref.id = parent ∨ ref.target = kind.table ∧ ref.id = text

namespace Level

/-- The messages of transactions. -/
@[reducible] def messages : Level Message where
  kind := .messageType
  table := .messages
  above := .txes
  text := Message.messageType
  index := Message.index
  slot := MessageRow.slot
  row tx messageType message := { tx, messageType, index := message.index }
  slot_row _ _ _ := rfl
  key_eq _ := rfl
  parent_ref _ := ⟨"tx_id", List.mem_cons_self⟩
  target_row _ _ _ ref h := by
    rcases List.mem_pair.1 h with rfl | rfl
    · exact Or.inl ⟨rfl, rfl⟩
    · exact Or.inr ⟨rfl, rfl⟩

/-- The events of messages. -/
@[reducible] def events : Level Event where
  kind := .eventType
  table := .events
  above := .messages
  text := Event.eventType
  index := Event.index
  slot := EventRow.slot
  row message eventType event := { message, eventType, index := event.index }
  slot_row _ _ _ := rfl
  key_eq _ := rfl
  parent_ref _ := ⟨"message_id", List.mem_cons_self⟩
  target_row _ _ _ ref h := by
    rcases List.mem_pair.1 h with rfl | rfl
    · exact Or.inl ⟨rfl, rfl⟩
    · exact Or.inr ⟨rfl, rfl⟩

/-- The attributes of events. -/
@[reducible] def attributes : Level Attribute where
  kind := .attributeKey
  table := .attributes
  above := .events
  text := Attribute.key
  index := Attribute.index
  slot := AttributeRow.slot
  row event key detail := { event, key, index := detail.index, value := detail.value }
  slot_row _ _ _ := rfl
  key_eq _ := rfl
  parent_ref _ := ⟨"message_event_id", List.mem_cons_self⟩
  target_row _ _ _ ref h := by
    rcases List.mem_pair.1 h with rfl | rfl
    · exact Or.inl ⟨rfl, rfl⟩
    · exact Or.inr ⟨rfl, rfl⟩

variable {α : Type} (L : Level α) (known : List String)

/-- The first fault among the entities below a parent, given the indexes that are taken: a text that
is not known, or an index that is taken. -/
def faultAmong? (parent : Parent) : (taken : List Int64) → List α → Option Fault
  | _, [] => none
  | taken, a :: rest =>
    if L.text a ∉ known then some (.unregistered L.kind (L.text a))
    else if L.index a ∈ taken then some (.repeated L.kind parent (L.index a))
    else faultAmong? parent (L.index a :: taken) rest

/-- The first fault of a level. -/
def fault? (families : List (Family α)) : Option Fault :=
  families.findSome? fun family => L.faultAmong? known family.parent [] family.members

/-- Every text is known, and no index is claimed twice. -/
def Fits (members : List α) : Prop :=
  (∀ a ∈ members, L.text a ∈ known) ∧ (members.map L.index).Nodup

theorem faultAmong?_eq_none {parent : Parent} {taken : List Int64} {members : List α} :
    L.faultAmong? known parent taken members = none ↔
      L.Fits known members ∧ ∀ a ∈ members, L.index a ∉ taken := by
  induction members generalizing taken with
  | nil => simp [faultAmong?, Fits]
  | cons a rest ih =>
    simp only [faultAmong?, Fits, List.forall_mem_cons, List.map_cons, List.nodup_cons]
    by_cases hknown : L.text a ∈ known
    · rw [if_neg (not_not_intro hknown)]
      by_cases htaken : L.index a ∈ taken
      · simp [htaken]
      · rw [if_neg htaken, ih, Fits]
        constructor
        · rintro ⟨⟨htexts, hnodup⟩, hfree⟩
          refine ⟨⟨⟨hknown, htexts⟩, ?_, hnodup⟩, htaken, fun b hb hmem => ?_⟩
          · intro hmem
            obtain ⟨b, hb, he⟩ := List.mem_map.1 hmem
            exact hfree b hb (he ▸ List.mem_cons_self)
          · exact hfree b hb (List.mem_cons_of_mem _ hmem)
        · rintro ⟨⟨⟨_, htexts⟩, hnew, hnodup⟩, _, hfree⟩
          refine ⟨⟨htexts, hnodup⟩, fun b hb hmem => ?_⟩
          rcases List.mem_cons.1 hmem with he | hmem
          · exact hnew (List.mem_map.2 ⟨b, hb, he⟩)
          · exact hfree b hb hmem
    · simp [hknown]

theorem fault?_eq_none {families : List (Family α)} :
    L.fault? known families = none ↔ ∀ family ∈ families, L.Fits known family.members := by
  simp [fault?, List.findSome?_eq_none_iff, faultAmong?_eq_none]

/-- Who claims an index twice lies below one of the parents. -/
theorem parent_of_faultAmong? {parent : Parent} {taken : List Int64} {members : List α}
    {kind : ReferenceKind} {other : Parent} {index : Int64}
    (h : L.faultAmong? known parent taken members = some (.repeated kind other index)) :
    other = parent := by
  induction members generalizing taken with
  | nil => cases h
  | cons a rest ih =>
    rw [faultAmong?] at h
    split at h
    · cases h
    · split at h
      · cases h
        rfl
      · exact ih h

end Level

/-! ## The whole block -/

/-- The time cannot be stored. -/
def timeFault? (block : Block) : Option QueryError :=
  if block.time.toTimestamp.InRange then none else some .timeOutOfRange

/-- The chain of the block is not there. -/
def chainFault? (s : Store) (block : Block) : Option QueryError :=
  if block.chain ∈ s.chains.rows then none else some (.missingReferent .blocks "blockchain_id")

/-- One of the texts cannot be sent. -/
def unsentFault? (texts : List String) : Option QueryError :=
  if ∃ text ∈ texts, HasZero text then some .zeroByte else none

/-- Two of the texts are the same. -/
def repeatFault? (texts : List String) : Option QueryError :=
  if texts.Nodup then none else some .repeatedKey

/-- The values of the attributes. -/
def attributeValues (txs : List Tx) : List String :=
  (attributeFamilies txs).flatMap fun family => family.members.map (·.value)

/-- The first fault of the levels, each of which is gone through as a whole before the next. -/
def levelFault? (data : ReferenceData) (txs : List Tx) : Option Fault :=
  (Level.messages.fault? (data.texts .messageType) (messageFamilies txs)).or <|
    (Level.events.fault? (data.texts .eventType) (eventFamilies txs)).or <|
      Level.attributes.fault? (data.texts .attributeKey) (attributeFamilies txs)

/-- The first fault of the shared texts, statement by statement. -/
def textsFault? (fault? : List String → Option QueryError) (data : ReferenceData) :
    Option QueryError :=
  let among (kind : ReferenceKind) := (kind.statements (data.texts kind)).findSome? fault?
  (among .messageType).or <| (among .eventType).or <| among .attributeKey

/-- The fault of a block whose surviving transactions are `txs`, stage by stage. -/
def fault? (s : Store) (block : Block) (txs : List Tx) : Option Fault :=
  let data := ReferenceData.collect txs
  (((timeFault? block).or (chainFault? s block)).map .refused).or <|
    ((unsentFault? data.signers.toList).map .refused).or <|
      ((unsentFault? (txs.map (·.hash))).map .refused).or <|
        ((textsFault? (fun texts => (unsentFault? texts).or (repeatFault? texts))
          data).map .refused).or <|
          (levelFault? data txs).or ((unsentFault? (attributeValues txs)).map .refused)

/-- The fault of a block whose texts and time can be sent: the chain is not there, two of the texts
that one statement sends are the same, or one of the levels has a fault. -/
def defect? (s : Store) (block : Block) (txs : List Tx) : Option Fault :=
  let data := ReferenceData.collect txs
  ((chainFault? s block).map .refused).or <|
    ((textsFault? repeatFault? data).map .refused).or (levelFault? data txs)

/-- The time and the texts of a block can be sent to the store. -/
structure Accepted (block : Block) (txs : List Tx) : Prop where
  time : block.time.toTimestamp.InRange
  hashes : ∀ tx ∈ txs, ¬ HasZero tx.hash
  signers : ∀ tx ∈ txs, ∀ address ∈ tx.signer, ¬ HasZero address
  texts : ∀ kind, ∀ text ∈ (ReferenceData.collect txs).texts kind, ¬ HasZero text
  values : ∀ tx ∈ txs, ∀ message ∈ tx.messages, ∀ event ∈ message.events,
    ∀ detail ∈ event.attributes, ¬ HasZero detail.value

/-- The chain of a block is there, no two of the texts that one statement sends are the same, every
text that is used is brought along, and no two messages of a transaction, events of a message or
attributes of an event share their index. -/
structure Fits (s : Store) (block : Block) (txs : List Tx) : Prop where
  chain : block.chain ∈ s.chains.rows
  texts : ∀ kind : ReferenceKind,
    ∀ part ∈ kind.statements ((ReferenceData.collect txs).texts kind), part.Nodup
  messages : ∀ tx ∈ txs,
    Level.messages.Fits ((ReferenceData.collect txs).texts .messageType) tx.messages
  events : ∀ tx ∈ txs, ∀ message ∈ tx.messages,
    Level.events.Fits ((ReferenceData.collect txs).texts .eventType) message.events
  attributes : ∀ tx ∈ txs, ∀ message ∈ tx.messages, ∀ event ∈ message.events,
    Level.attributes.Fits ((ReferenceData.collect txs).texts .attributeKey) event.attributes

theorem unsentFault?_eq_none {texts : List String} :
    unsentFault? texts = none ↔ ∀ text ∈ texts, ¬ HasZero text := by
  simp [unsentFault?]

theorem repeatFault?_eq_none {texts : List String} : repeatFault? texts = none ↔ texts.Nodup := by
  simp [repeatFault?]

theorem textsFault?_eq_none {f : List String → Option QueryError} {data : ReferenceData} :
    textsFault? f data = none ↔
      ∀ kind : ReferenceKind, ∀ part ∈ kind.statements (data.texts kind), f part = none := by
  simp only [textsFault?, Option.or_eq_none_iff, List.findSome?_eq_none_iff]
  constructor
  · rintro ⟨hmessage, hevent, hattribute⟩ kind
    cases kind with
    | messageType => exact hmessage
    | eventType => exact hevent
    | attributeKey => exact hattribute
  · intro h
    exact ⟨h .messageType, h .eventType, h .attributeKey⟩

theorem textsFault?_congr {f g : List String → Option QueryError} {data : ReferenceData}
    (h : ∀ kind : ReferenceKind, ∀ part ∈ kind.statements (data.texts kind), f part = g part) :
    textsFault? f data = textsFault? g data := by
  simp only [textsFault?, findSome?_congr (h _)]

theorem forall_mem_messageFamilies {txs : List Tx} {P : Family Message → Prop} :
    (∀ family ∈ messageFamilies txs, P family) ↔ ∀ tx ∈ txs, P ⟨.tx tx, tx.messages⟩ := by
  simp [messageFamilies]

theorem forall_mem_eventFamilies {txs : List Tx} {P : Family Event → Prop} :
    (∀ family ∈ eventFamilies txs, P family) ↔
      ∀ tx ∈ txs, ∀ message ∈ tx.messages, P ⟨.message tx message, message.events⟩ := by
  simp only [eventFamilies, List.mem_flatMap, List.mem_map]
  constructor
  · intro h tx htx message hmessage
    exact h _ ⟨tx, htx, message, hmessage, rfl⟩
  · rintro h family ⟨tx, htx, message, hmessage, rfl⟩
    exact h tx htx message hmessage

theorem forall_mem_attributeFamilies {txs : List Tx} {P : Family Attribute → Prop} :
    (∀ family ∈ attributeFamilies txs, P family) ↔
      ∀ tx ∈ txs, ∀ message ∈ tx.messages, ∀ event ∈ message.events,
        P ⟨.event tx message event, event.attributes⟩ := by
  simp only [attributeFamilies, List.mem_flatMap, List.mem_map]
  constructor
  · intro h tx htx message hmessage event hevent
    exact h _ ⟨tx, htx, message, hmessage, event, hevent, rfl⟩
  · rintro h family ⟨tx, htx, message, hmessage, event, hevent, rfl⟩
    exact h tx htx message hmessage event hevent

theorem levelFault?_eq_none {data : ReferenceData} {txs : List Tx} :
    levelFault? data txs = none ↔
      (∀ tx ∈ txs, Level.messages.Fits (data.texts .messageType) tx.messages) ∧
        (∀ tx ∈ txs, ∀ message ∈ tx.messages,
          Level.events.Fits (data.texts .eventType) message.events) ∧
        ∀ tx ∈ txs, ∀ message ∈ tx.messages, ∀ event ∈ message.events,
          Level.attributes.Fits (data.texts .attributeKey) event.attributes := by
  simp only [levelFault?, Option.or_eq_none_iff, Level.fault?_eq_none, forall_mem_messageFamilies,
    forall_mem_eventFamilies, forall_mem_attributeFamilies]

/-- A block has no defect if it fits. -/
theorem defect?_eq_none {s : Store} {block : Block} {txs : List Tx} :
    defect? s block txs = none ↔ Fits s block txs := by
  have hchain : chainFault? s block = none ↔ block.chain ∈ s.chains.rows := by
    simp [chainFault?]
  simp only [defect?, Option.or_eq_none_iff, Option.map_eq_none_iff, textsFault?_eq_none,
    repeatFault?_eq_none, levelFault?_eq_none, hchain]
  constructor
  · rintro ⟨hthere, htexts, hmessages, hevents, hattributes⟩
    exact ⟨hthere, htexts, hmessages, hevents, hattributes⟩
  · intro h
    exact ⟨h.chain, h.texts, h.messages, h.events, h.attributes⟩

theorem forall_mem_attributeValues {txs : List Tx} {P : String → Prop} :
    (∀ value ∈ attributeValues txs, P value) ↔
      ∀ tx ∈ txs, ∀ message ∈ tx.messages, ∀ event ∈ message.events,
        ∀ detail ∈ event.attributes, P detail.value := by
  rw [← forall_mem_attributeFamilies (P := fun family => ∀ detail ∈ family.members, P detail.value)]
  simp only [attributeValues, List.mem_flatMap, List.mem_map]
  constructor
  · intro h family hfamily detail hdetail
    exact h _ ⟨family, hfamily, detail, hdetail, rfl⟩
  · rintro h value ⟨family, hfamily, detail, hdetail, rfl⟩
    exact h family hfamily detail hdetail

/-- A block whose time and texts can be sent has no other faults than its defects. -/
theorem fault?_of_accepted {s : Store} {block : Block} {txs : List Tx} (h : Accepted block txs) :
    fault? s block txs = defect? s block txs := by
  have htime : timeFault? block = none := if_pos h.time
  have hhashes : unsentFault? (txs.map (·.hash)) = none := by
    rw [unsentFault?_eq_none]
    simpa using h.hashes
  have hsigners : unsentFault? (ReferenceData.collect txs).signers.toList = none := by
    rw [unsentFault?_eq_none]
    intro address haddress
    obtain ⟨tx, htx, hsigner⟩ :=
      ReferenceData.mem_signers_collect.1 (Std.ExtTreeSet.mem_toList.1 haddress)
    exact h.signers tx htx address hsigner
  have htexts : textsFault? (fun texts => (unsentFault? texts).or (repeatFault? texts))
      (ReferenceData.collect txs) = textsFault? repeatFault? (ReferenceData.collect txs) := by
    apply textsFault?_congr
    intro kind part hpart
    rw [unsentFault?_eq_none.2 (ReferenceKind.forall_mem_statements.2 (h.texts kind) part hpart),
      Option.none_or]
  have hvalues : unsentFault? (attributeValues txs) = none :=
    unsentFault?_eq_none.2 (forall_mem_attributeValues.2 h.values)
  simp only [fault?, defect?, htime, hhashes, hsigners, htexts, hvalues, Option.none_or,
    Option.or_none, Option.map_none]

/-- A block without a fault fits, and its time and texts can be sent. -/
theorem fault?_eq_none {s : Store} {block : Block} {txs : List Tx} :
    fault? s block txs = none ↔ Accepted block txs ∧ Fits s block txs := by
  constructor
  · intro h
    have hparts := h
    simp only [fault?, Option.or_eq_none_iff, Option.map_eq_none_iff, textsFault?_eq_none,
      unsentFault?_eq_none, forall_mem_attributeValues] at hparts
    obtain ⟨⟨htime, _⟩, hsigners, hhashes, htexts, _, hvalues⟩ := hparts
    have hacc : Accepted block txs := by
      refine ⟨by simpa [timeFault?] using htime, by simpa using hhashes, ?_, ?_, hvalues⟩
      · intro tx htx address hsigner
        apply hsigners
        exact Std.ExtTreeSet.mem_toList.2 (ReferenceData.mem_signers_collect.2 ⟨tx, htx, hsigner⟩)
      · exact fun kind => ReferenceKind.forall_mem_statements.1
          fun part hpart => (htexts kind part hpart).1
    rw [fault?_of_accepted hacc, defect?_eq_none] at h
    exact ⟨hacc, h⟩
  · rintro ⟨hacc, hfits⟩
    rw [fault?_of_accepted hacc, defect?_eq_none]
    exact hfits

end Persist

end BlockArchive
