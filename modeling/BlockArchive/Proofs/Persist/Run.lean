import BlockArchive.Proofs.Persist.Levels
import BlockArchive.Proofs.Persist.Plan

/-!
# Storing a block, as a whole

The stages in their order: they follow the parts of storing the block. So a block with a fault fails
with it, and a block without one is stored.

## Main statements

- `Persist.follows_messages`: what lies below the transactions
- `Persist.follows_below`: what lies below the block
- `Persist.follows_stages`: the whole block
- `Persist.ends_persist`: a block is stored or has a fault
-/

namespace BlockArchive

namespace Persist

variable {block : Block} {txs : List Tx} {s t : Store} {done : List TableName}

/-! ## Candidates -/

section Candidates

variable {ids : ParentIds} {refs : ResolvedReferences}

theorem messageCandidates_eq (hids : ∀ tx ∈ txs, ids.tx tx = .ok (t.txId tx)) :
    messageCandidates ids refs txs = (messageFamilies txs).flatMap fun family =>
      family.members.map
        (Level.messages.candidate (refs.id .messageType) (t.nameOf family.parent)) := by
  rw [messageCandidates, messageFamilies, List.flatMap_map]
  apply List.flatMap_congr
  intro tx htx
  rw [hids tx htx]
  rfl

theorem eventCandidates_eq
    (hids : ∀ tx ∈ txs, ∀ message ∈ tx.messages,
      ids.message tx message = .ok (t.messageId tx message))
    (htxs : ∀ tx ∈ txs, ∃ id, ids.tx tx = .ok id) :
    eventCandidates ids refs txs = (eventFamilies txs).flatMap fun family =>
      family.members.map
        (Level.events.candidate (refs.id .eventType) (t.nameOf family.parent)) := by
  rw [eventCandidates, eventFamilies, List.flatMap_assoc]
  apply List.flatMap_congr
  intro tx htx
  obtain ⟨txId, htxId⟩ := htxs tx htx
  rw [htxId, List.flatMap_map]
  apply List.flatMap_congr
  intro message hmessage
  rw [hids tx htx message hmessage]
  rfl

theorem attributeCandidates_eq
    (hids : ∀ tx ∈ txs, ∀ message ∈ tx.messages, ∀ event ∈ message.events,
      ids.event tx message event = .ok (t.eventId tx message event))
    (hmessages : ∀ tx ∈ txs, ∀ message ∈ tx.messages, ∃ id, ids.message tx message = .ok id)
    (htxs : ∀ tx ∈ txs, ∃ id, ids.tx tx = .ok id) :
    attributeCandidates ids refs txs = (attributeFamilies txs).flatMap fun family =>
      family.members.map
        (Level.attributes.candidate (refs.id .attributeKey) (t.nameOf family.parent)) := by
  rw [attributeCandidates, attributeFamilies, List.flatMap_assoc]
  apply List.flatMap_congr
  intro tx htx
  obtain ⟨txId, htxId⟩ := htxs tx htx
  rw [htxId, List.flatMap_assoc]
  apply List.flatMap_congr
  intro message hmessage
  obtain ⟨messageId, hmessageId⟩ := hmessages tx htx message hmessage
  rw [hmessageId, List.flatMap_map]
  apply List.flatMap_congr
  intro event hevent
  rw [hids tx htx message hmessage event hevent]
  rfl

theorem generatedId_ok {κ : Type} [Ord κ] [Std.TransOrd κ] {ids : Std.ExtTreeMap κ Id} {key : κ}
    {id : Id} (h : ids[key]? = some id) (entity text : String) :
    generatedId ids key entity text = .ok id := by
  rw [generatedId, h]

theorem message_id_ok {tx : Tx} {message : Message} (htx : ids.tx tx = .ok (t.txId tx))
    (h : ids.messages[(⟨t.txId tx, message.index⟩ : Slot)]? = some (t.messageId tx message)) :
    ids.message tx message = .ok (t.messageId tx message) := by
  rw [ParentIds.message, htx]
  exact generatedId_ok h _ _

theorem event_id_ok {tx : Tx} {message : Message} {event : Event}
    (hmessage : ids.message tx message = .ok (t.messageId tx message))
    (h : ids.events[(⟨t.messageId tx message, event.index⟩ : Slot)]? =
      some (t.eventId tx message event)) :
    ids.event tx message event = .ok (t.eventId tx message event) := by
  rw [ParentIds.event, hmessage]
  exact generatedId_ok h _ _

end Candidates

/-! ## The messages and what lies below them -/

/-- The values are the texts of the attributes' rows. -/
theorem fault?_or_unsent {known : List String}
    (hnames : ((attributeFamilies txs).map (t.nameOf ·.parent)).Nodup) :
    (Level.attributes.fault? known (attributeFamilies txs)).or
        ((unsentFault? ((written block txs t .attributes).flatMap
          (TableName.texts .attributes))).map .refused) =
      (Level.attributes.fault? known (attributeFamilies txs)).or
        ((unsentFault? (attributeValues txs)).map .refused) := by
  cases hfault : Level.attributes.fault? known (attributeFamilies txs) with
  | some fault => rfl
  | none =>
    have hslots :=
      Level.attributes.nodup_slots known t.nameOf (t.textId .attributeKey) hnames hfault
    rw [unsentFault?_congr (b := attributeValues txs)]
    intro text
    simp only [attributeValues, written, List.mem_flatMap, List.mem_map]
    constructor
    · rintro ⟨row, hrow, htext⟩
      rw [mem_inOrder hslots, Level.mem_rows] at hrow
      obtain ⟨family, hfamily, detail, hdetail, rfl⟩ := hrow
      exact ⟨family, hfamily, detail, hdetail, (List.mem_singleton.1 htext).symm⟩
    · rintro ⟨family, hfamily, detail, hdetail, rfl⟩
      have hrow := (Level.attributes.mem_rows t.nameOf (t.textId .attributeKey)).2
        ⟨family, hfamily, detail, hdetail, rfl⟩
      exact ⟨_, (mem_inOrder hslots).2 hrow, List.mem_cons_self⟩

theorem unsent_none {n : TableName} (h : ∀ row, n.texts row = []) {rows : List n.Row} :
    unsentFault? (rows.flatMap n.texts) = none := by
  rw [unsentFault?_eq_none]
  simp [h]

/-- Once the messages are written, their ids are found by their places. -/
theorem message_ids_of_told {ids : ParentIds} {told : List (Entry MessageRow)}
    (htxs : ∀ tx ∈ txs, ids.tx tx = .ok (t.txId tx))
    (htold : ∀ family ∈ messageFamilies txs, ∀ message ∈ family.members,
      (Entry.idsBy MessageRow.slot told)[(⟨t.nameOf family.parent, message.index⟩ : Slot)]? =
        some ((write block txs .messages t).idOf .messages
          (.slot ⟨t.nameOf family.parent, message.index⟩))) :
    ∀ tx ∈ txs, ∀ message ∈ tx.messages,
      { ids with messages := Entry.idsBy MessageRow.slot told }.message tx message =
        .ok ((write block txs .messages t).messageId tx message) := by
  intro tx htx message hmessage
  have htxId : (write block txs .messages t).txId tx = t.txId tx := idOf_write_of_ne (by decide) _
  have hid := htold ⟨.tx tx, tx.messages⟩ (List.mem_map_of_mem htx) message hmessage
  apply message_id_ok
  · rw [htxId]
    exact htxs tx htx
  · rw [Store.messageId, htxId]
    exact hid

/-- Once the events are written, their ids are found by their places. -/
theorem event_ids_of_told {ids : ParentIds} {told : List (Entry EventRow)}
    (hmessages : ∀ tx ∈ txs, ∀ message ∈ tx.messages,
      ids.message tx message = .ok (t.messageId tx message))
    (htold : ∀ family ∈ eventFamilies txs, ∀ event ∈ family.members,
      (Entry.idsBy EventRow.slot told)[(⟨t.nameOf family.parent, event.index⟩ : Slot)]? =
        some ((write block txs .events t).idOf .events
          (.slot ⟨t.nameOf family.parent, event.index⟩))) :
    ∀ tx ∈ txs, ∀ message ∈ tx.messages, ∀ event ∈ message.events,
      { ids with events := Entry.idsBy EventRow.slot told }.event tx message event =
        .ok ((write block txs .events t).eventId tx message event) := by
  intro tx htx message hmessage event hevent
  have hmessageId : (write block txs .events t).messageId tx message = t.messageId tx message := by
    simp only [Store.messageId, Store.txId, idOf_write_of_ne, ne_eq, reduceCtorEq,
      not_false_eq_true]
  have hid := htold ⟨.message tx message, message.events⟩
    (List.mem_flatMap.2 ⟨tx, htx, List.mem_map_of_mem hmessage⟩) event hevent
  apply event_id_ok
  · rw [hmessageId]
    exact hmessages tx htx message hmessage
  · rw [Store.eventId, hmessageId]
    exact hid

theorem flatMap_messageFamilies (txs : List Tx) :
    ((messageFamilies txs).flatMap fun family => family.members) =
      txs.flatMap fun tx => tx.messages := by
  simp only [messageFamilies, List.flatMap_map]

theorem flatMap_eventFamilies (txs : List Tx) :
    ((eventFamilies txs).flatMap fun family => family.members) =
      txs.flatMap fun tx => tx.messages.flatMap fun message => message.events := by
  simp only [eventFamilies, List.flatMap_assoc, List.flatMap_map]

theorem flatMap_attributeFamilies (txs : List Tx) :
    ((attributeFamilies txs).flatMap fun family => family.members) =
      txs.flatMap fun tx => tx.messages.flatMap fun message =>
        message.events.flatMap fun event => event.attributes := by
  simp only [attributeFamilies, List.flatMap_assoc, List.flatMap_map]

theorem silent_made {α β : Type} (made : Except Failure α) (statement : α → StoreM β) :
    WriteM.Silent (WriteM.ofExcept made >>= fun rows => WriteM.query (statement rows)) :=
  (WriteM.silent_ofExcept made).bind fun rows => WriteM.silent_query (statement rows)

/-- What lies below the transactions is stored level by level. -/
theorem follows_messages
    (h : Progress block txs s t
      [.attributeKeys, .eventTypes, .messageTypes, .txes, .addresses, .blocks])
    (hs : s.Sound) (hhashes : (txs.map (·.hash)).Nodup) {txes : Std.ExtTreeMap String Id}
    (htxes : ∀ tx ∈ txs, txes[tx.hash]? = some (t.txId tx)) {refs : ResolvedReferences}
    (hrefs : Resolved (ReferenceData.collect txs) refs t) {session : Session}
    (ht : session.store = t) :
    Follows s block (WriteM.stage .messages block (storeMessages txes refs txs)) session []
      (levelParts txs) fun _ u => Stored block txs s u := by
  unfold storeMessages storeMessagesBy levelParts
  -- the messages
  have htxIds : ∀ tx ∈ txs, ({ txes } : ParentIds).tx tx = .ok (t.txId tx) :=
    fun tx htx => generatedId_ok (htxes tx htx) _ _
  have hfound : ∀ tx ∈ txs, ∃ id, ({ txes } : ParentIds).tx tx = .ok id :=
    fun tx htx => ⟨_, htxIds tx htx⟩
  have hready := messages_ready h hs hhashes (by decide) (by decide)
  have hmessages := Level.messages.ends_stage hready h (by decide) ⟨by decide, by decide⟩
    (by decide) rfl (hrefs .messageType) (messageCandidates_eq htxIds) ht
  rw [unsent_none (fun _ => rfl), Option.map_none, Option.or_none] at hmessages
  apply Follows.partOfStage hmessages (silent_made _ _)
  rintro told after ⟨hfault, hstore, h₁, hlength, hsize, hids⟩
  rw [flatMap_messageFamilies, ← hsize] at hlength
  apply Follows.tellsInStage (WriteM.tells_log (congrArg _ hlength))
  intro after₁ hafter₁
  have hmessageIds := message_ids_of_told htxIds hids
  -- the events
  have hrefs₁ := hrefs.write block txs (n := .messages)
    fun kind => by cases kind <;> decide
  have hready₁ := events_ready h₁ hs hhashes (by decide) (by decide) (by decide) (by decide) hfault
  have hevents := Level.events.ends_stage hready₁ h₁ (by decide) ⟨by decide, by decide⟩ (by decide)
    rfl (hrefs₁ .eventType) (eventCandidates_eq hmessageIds hfound) (hafter₁.trans hstore)
  rw [unsent_none (fun _ => rfl), Option.map_none, Option.or_none] at hevents
  apply Follows.partOfStage hevents (silent_made _ _)
  rintro told₂ after₂ ⟨hfault₂, hstore₂, h₂, hlength₂, hsize₂, hids₂⟩
  rw [flatMap_eventFamilies, ← hsize₂] at hlength₂
  apply Follows.tellsInStage (WriteM.tells_log (congrArg _ hlength₂))
  intro after₃ hafter₃
  have heventIds := event_ids_of_told hmessageIds hids₂
  -- the attributes
  have hrefs₂ := hrefs₁.write block txs (n := .events)
    fun kind => by cases kind <;> decide
  have hready₂ := attributes_ready h₂ hs hhashes (by decide) (by decide) (by decide) (by decide)
    (by decide) (by decide) hfault hfault₂
  have hattributes := Level.attributes.ends_stage hready₂ h₂ (by decide) ⟨by decide, by decide⟩
    (by decide) rfl (hrefs₂ .attributeKey)
    (attributeCandidates_eq heventIds
      (fun tx htx message hmessage => ⟨_, hmessageIds tx htx message hmessage⟩) hfound)
    (hafter₃.trans hstore₂)
  rw [fault?_or_unsent hready₂.nodup] at hattributes
  apply Follows.partOfStage hattributes (silent_made _ _)
  rintro told₃ after₄ ⟨-, hstore₄, h₃, hlength₃, -, -⟩
  rw [flatMap_attributeFamilies] at hlength₃
  refine Follows.tellsLast ((WriteM.tells_log (congrArg _ hlength₃)).stage _ _) ?_
  rw [hstore₄]
  exact h₃

/-! ## The whole block -/

theorem tells_noteUnknownTime (block : Block) :
    (noteUnknownTime block).Tells
      (if block.IsPlaceholder then [.placeholder block.height] else []) :=
  WriteM.tells_if

theorem tells_warnOfRepeatedHashes (txs unique : List Tx) :
    (warnOfRepeatedHashes txs unique).Tells
      (if unique.length ≠ txs.length then [.repeatedHashes txs.length unique.length] else []) :=
  WriteM.tells_if

theorem tells_warnOfDroppedFees (block : Block) (txs : List Tx) :
    (warnOfDroppedFees block txs).Tells
      (if (txs.flatMap fun tx => tx.fees).isEmpty then []
        else [.droppedFees (txs.flatMap fun tx => tx.fees).length block.height]) := by
  unfold warnOfDroppedFees
  simp only
  split
  · exact WriteM.tells_nothing
  · exact WriteM.tells_log rfl

/-- What lies below the block is stored stage by stage. -/
theorem follows_below (hs : s.Sound) {all : List Tx} {blockId : Id} {session : Session}
    (h : Progress block (Tx.uniqueByHash all) s session.store [.blocks])
    (hblockId : blockId = session.store.idOf .blocks (.slot (block.row .txs).slot)) :
    Follows s block (storeBelow block all blockId) session (remarks block all (Tx.uniqueByHash all))
      (partsBelow block (Tx.uniqueByHash all))
      fun _ u => Stored block (Tx.uniqueByHash all) s u := by
  have hhashes := Tx.nodup_hashes all
  unfold storeBelow storeBelowBy
  generalize Tx.uniqueByHash all = unique at h hhashes ⊢
  -- what is only told
  apply Follows.tells (tells_noteUnknownTime block)
  intro a₁ h₁
  apply Follows.tells (tells_warnOfRepeatedHashes all unique)
  intro a₂ h₂
  apply Follows.tellsAll (tells_warnOfDroppedFees block unique)
  intro a₃ h₃
  rw [← h₁, ← h₂, ← h₃] at h hblockId
  -- the signers and the transactions
  apply Follows.part (ends_refused (ends_addresses h (by decide) (by decide)))
    (WriteM.silent_query _)
  rintro addresses a₄ ⟨h₄, hprogress₄, hsize, haddresses⟩
  rw [ReferenceData.length_signers_collect] at hsize
  apply Follows.tellsAll (WriteM.tells_log (by rw [hsize]))
  intro a₅ h₅
  rw [← h₅] at hprogress₄ haddresses
  have hblockId₅ : blockId = a₅.store.idOf .blocks (.slot (block.row .txs).slot) := by
    rw [h₅, h₄, idOf_write_of_ne (by decide)]
    exact hblockId
  apply Follows.part (ends_txes hprogress₄ hs hhashes (by decide) (by decide) (by decide)
    (by decide) hblockId₅ haddresses rfl) (silent_made _ _)
  rintro txes a₆ ⟨h₆, hprogress₆, hlength, htxes⟩
  apply Follows.tellsAll (WriteM.tells_log (by rw [hlength]))
  intro a₇ h₇
  rw [← h₇] at hprogress₆ htxes
  -- the shared texts and the messages
  apply Follows.part (ends_refused (ends_references hprogress₆
    (fun kind => by cases kind <;> decide)
    (fun m hm kind => by revert m; cases kind <;> decide))) (WriteM.silent_query _)
  rintro refs a₈ ⟨h₈, hprogress₈, hrefs⟩
  have htxIds : ∀ tx, a₈.store.txId tx = a₇.store.txId tx := by
    intro tx
    rw [h₈]
    simp only [writeTexts, Store.txId, idOf_write_of_ne, ne_eq, reduceCtorEq, not_false_eq_true]
  refine follows_messages hprogress₈ hs hhashes (fun tx htx => ?_) hrefs rfl
  rw [htxIds]
  exact htxes tx htx

/-- Once the marker has gone, the stage of the block fails if the time of the block cannot be stored
or its chain is not there. Otherwise the block is written. -/
theorem ends_opening (hs : s.Sound) (block : Block) (txs : List Tx) {session : Session}
    (hsession : session.store = cleared block s) :
    Ends (Fault.Tells s) (WriteM.query (Store.upsertOne .blocks (block.row .txs))) session
      (((timeFault? block).or (chainFault? s block)).map .refused)
      fun blockId after => Progress block txs s after.store [.blocks] ∧
        blockId = after.store.idOf .blocks (.slot (block.row .txs).slot) := by
  have hstart := Progress.start block txs hs
  rw [← hsession] at hstart
  have hblock := ends_block .txs block hstart.sound
  have hchain : chainFault? session.store block = chainFault? s block := by
    rw [chainFault?, chainFault?, hsession]
    rfl
  rw [hchain] at hblock
  apply (ends_refused hblock).mono
  rintro hnone blockId after ⟨hstore, hblockId⟩
  have hthere : block.chain ∈ session.store.chains.rows := by
    rw [Option.map_eq_none_iff, Option.or_eq_none_iff, ← hchain] at hnone
    simpa [chainFault?] using hnone.2
  have hprogress := hstart.write (n := .blocks) (by decide) (by decide) (by decide)
    (fun row hrow => by
      cases List.mem_singleton.1 hrow
      exact Or.inl rfl)
    (fun row hrow ref href => by
      cases List.mem_singleton.1 hrow
      cases List.mem_singleton.1 href
      exact hthere)
    (.of_nodup (List.nodup_singleton _))
  rw [show write block txs .blocks session.store = after.store from hstore.symm] at hprogress
  exact ⟨hprogress, hblockId⟩

/-- A block is stored stage by stage. -/
theorem follows_stages (hs : s.Sound) (block : Block) (txs : List Tx) {session : Session}
    (hsession : session.store = s) :
    Follows s block (stages block txs) session [] (parts s block txs)
      fun _ u => Stored block (Tx.uniqueByHash txs) s u := by
  subst hsession
  rw [stages, stagesBy, parts]
  have hclear := ends_clearMarker .txs block.marker session.store
  apply Follows.part (ends_refused (s := session.store) hclear) (WriteM.silent_query _)
  intro _ middle hmiddle
  apply Follows.part (ends_opening hs block (Tx.uniqueByHash txs) hmiddle) (WriteM.silent_query _)
  rintro blockId after ⟨hprogress, hblockId⟩
  exact follows_below hs hprogress hblockId

/-- A block with a fault fails with it, and a block without one is stored. -/
theorem ends_stages (hs : s.Sound) (block : Block) (txs : List Tx) {session : Session}
    (hsession : session.store = s) :
    Ends (Fault.Tells s) (stages block txs) session (fault? s block (Tx.uniqueByHash txs))
      fun _ after => Stored block (Tx.uniqueByHash txs) s after.store := by
  have hends := (follows_stages hs block txs hsession).ends
  rwa [map_fault_report?] at hends

/-- The whole block is stored or none of it, and then for its fault. -/
theorem ends_persist (hs : s.Sound) (block : Block) (txs : List Tx) {session : Session}
    (hsession : session.store = s) :
    Ends (Fault.Tells s) (persist block txs) session (fault? s block (Tx.uniqueByHash txs))
      fun _ after => Stored block (Tx.uniqueByHash txs) s after.store := by
  apply (WriteM.ends_transaction (ends_stages hs block txs hsession)).last
  intro _ _ after hafter
  apply (WriteM.ends_log _).mono
  intro _ _ after' hstore
  rwa [hstore]

end Persist

end BlockArchive
