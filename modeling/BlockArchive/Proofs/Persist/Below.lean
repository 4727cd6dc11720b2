import BlockArchive.Proofs.Overlay
import BlockArchive.Proofs.Persist.Outcome

/-!
# What lies below the transactions of a stored block

Below each transaction, message and event that a block writes, what the block brings is laid over
what was there; everything that it does not write is told as before. The levels are gone through
from the lowest one upwards, as the view of an entity holds those of what lies below it.

## Main statements

- `Persist.Level.viewsBelow_member`, `Persist.Level.viewsBelow_other`: what lies below a parent that
  is written, and below one that is not
- `Persist.messageViews_member`, `Persist.messageViews_other`: the same for whole transactions
-/

namespace BlockArchive

namespace Persist

variable {block : Block} {txs : List Tx} {s t : Store} {done : List TableName}

namespace Level

variable {α ν : Type} (L : Level α) {known : List String} {families : List (Family α)}
  (hready : L.Ready known families s t) (hfault : L.fault? known families = none) (hs : s.Sound)
  (h : Progress block txs s t done) (hn : L.table ∈ done)
  (hwritten : written block txs t L.table =
    inOrder L.slot (L.rows t.nameOf (t.textId L.kind) families))

include hready hfault hs h hn hwritten

/-- A place that no entity of the block claims keeps its row. -/
theorem find?_of_free {parent : Id} {index : Int64}
    (hfree : ∀ family ∈ families, t.nameOf family.parent = parent →
      ∀ a ∈ family.members, L.index a ≠ index) :
    t.find? L.table (.slot ⟨parent, index⟩) = s.find? L.table (.slot ⟨parent, index⟩) := by
  apply h.find?_of_free hs hn
  intro row hrow hkey
  rw [L.mem_written hready hfault hwritten] at hrow
  obtain ⟨family, hfamily, a, ha, rfl⟩ := hrow
  rw [L.key_eq, L.slot_row, Key.slot.injEq, Slot.mk.injEq] at hkey
  exact hfree family hfamily hkey.1 a ha hkey.2

variable {readS readT : Entry L.table.Row → Option ν}
  (hrest : ∀ entry ∈ (s.get L.table).entries,
    t.find? L.table (L.table.key entry.row) = some entry →
    (∀ row ∈ written block txs t L.table, L.table.key row ≠ L.table.key entry.row) →
      readT entry = readS entry)

include hrest

theorem bind_find?_of_free {parent : Id} {index : Int64}
    (hfree : ∀ family ∈ families, t.nameOf family.parent = parent →
      ∀ a ∈ family.members, L.index a ≠ index) :
    (t.find? L.table (.slot ⟨parent, index⟩)).bind readT =
      (s.find? L.table (.slot ⟨parent, index⟩)).bind readS := by
  have hsame := L.find?_of_free hready hfault hs h hn hwritten hfree
  rw [hsame]
  cases hfind : s.find? L.table (.slot ⟨parent, index⟩) with
  | none => rfl
  | some entry =>
    obtain ⟨hmem, hkey⟩ := Store.mem_of_find? hfind
    apply hrest entry hmem
    · rw [hkey, hsame, hfind]
    · intro row hrow he
      rw [L.mem_written hready hfault hwritten] at hrow
      obtain ⟨family, hfamily, a, ha, rfl⟩ := hrow
      rw [hkey, L.key_eq, L.slot_row, Key.slot.injEq, Slot.mk.injEq] at he
      exact hfree family hfamily he.1 a ha he.2

/-- Below a parent that the block does not bring everything is told as before. -/
theorem viewsBelow_other {parent : Id}
    (hparent : ∀ family ∈ families, t.nameOf family.parent ≠ parent) :
    t.viewsBelow L.table readT parent = s.viewsBelow L.table readS parent := by
  funext index
  exact L.bind_find?_of_free hready hfault hs h hn hwritten hrest
    fun family hfamily he => absurd he (hparent family hfamily)

/-- Below a parent that the block brings its entities are laid over what was there. -/
theorem viewsBelow_member {put : Option ν → α → ν} {family : Family α} (hfamily : family ∈ families)
    (hmember : ∀ a ∈ family.members, ∀ entry,
      t.find? L.table (.slot ⟨t.nameOf family.parent, L.index a⟩) = some entry →
      (s.get L.table).Settles L.table.key L.table.refresh
        (L.row (t.nameOf family.parent) (t.textId L.kind (L.text a)) a) entry →
      readT entry =
        some (put ((s.find? L.table (.slot ⟨t.nameOf family.parent, L.index a⟩)).bind readS) a)) :
    t.viewsBelow L.table readT (t.nameOf family.parent) =
      overlay L.index put family.members
        (s.viewsBelow L.table readS (t.nameOf family.parent)) := by
  funext index
  rw [overlay]
  cases hfind : family.members.find? fun a => L.index a = index with
  | some a =>
    have ha := List.mem_of_find?_eq_some hfind
    have hindex : L.index a = index := by simpa using List.find?_some hfind
    subst hindex
    obtain ⟨entry, hentry, hsettles⟩ :=
      L.settles_member hready hfault hs h hn hwritten hfamily ha
    rw [Store.viewsBelow, hentry]
    exact hmember a ha entry hentry hsettles
  | none =>
    apply L.bind_find?_of_free hready hfault hs h hn hwritten hrest
    intro other hother he a ha hindex
    -- parents with one id are one parent
    have hsame : other = family := List.inj_on_of_nodup_map hready.nodup hother hfamily he
    subst hsame
    simpa [hindex] using List.find?_eq_none.1 hfind a ha

omit hrest in
/-- A row that the block does not write is not the parent of what it brings to the next level. -/
theorem name_ne_of_not_written {β : Type} {next : List (Family β)}
    (hnext : next.map (t.nameOf ·.parent) =
      (L.rows t.nameOf (t.textId L.kind) families).map fun row =>
        t.idOf L.table (.slot (L.slot row)))
    {entry : Entry L.table.Row} (hentry : t.find? L.table (L.table.key entry.row) = some entry)
    (hfree : ∀ row ∈ written block txs t L.table, L.table.key row ≠ L.table.key entry.row) :
    ∀ family ∈ next, t.nameOf family.parent ≠ entry.id := by
  intro family hfamily he
  have hmem : t.nameOf family.parent ∈ next.map (t.nameOf ·.parent) :=
    List.mem_map_of_mem (f := (t.nameOf ·.parent)) hfamily
  rw [hnext] at hmem
  obtain ⟨row, hrow, hname⟩ := List.mem_map.1 hmem
  obtain ⟨above, habove, a, ha, rfl⟩ := (L.mem_rows _ _).1 hrow
  obtain ⟨other, hother, _⟩ := L.settles_member hready hfault hs h hn hwritten habove ha
  rw [L.slot_row, he, ← Store.idOf_eq hentry] at hname
  apply hfree _ ((L.mem_written hready hfault hwritten).2 ⟨above, habove, a, ha, rfl⟩)
  rw [L.key_eq, L.slot_row]
  exact Store.key_eq_of_idOf hother hentry hname

end Level

/-! ## Texts -/

section Texts

variable (hs : s.Sound) (h : Progress block txs s t done)

include hs h

/-- Texts and addresses keep their ids. -/
theorem Progress.kept {n : TableName} (hn : n ∈ done)
    (hkeep : ∀ stored offered, n.refresh stored offered = stored) {entry : Entry n.Row}
    (hentry : entry ∈ (s.get n).entries) : entry ∈ (t.get n).entries := by
  rw [h.tables n hn]
  exact (hs.keyed n).mem_offerAll_of_fixed n.keepsKey_refresh hentry fun _ _ _ => hkeep _ _

theorem Progress.textOf_of_stored (kind : ReferenceKind) (hkind : kind.table ∈ done) {id : Id}
    {text : String} (hid : s.textOf kind id = some text) : t.textOf kind id = some text := by
  rw [Store.textOf_eq_some] at hid ⊢
  obtain ⟨entry, hentry, he⟩ := hid
  exact ⟨entry, h.kept hs hkind kind.refresh_table hentry, he⟩

theorem Progress.textOf_textId (kind : ReferenceKind) (hkind : kind.table ∈ done) {text : String}
    (htext : text ∈ (ReferenceData.collect txs).texts kind) :
    t.textOf kind (t.textId kind text) = some text := by
  obtain ⟨entry, hfind⟩ := h.exists_text hs hkind htext
  obtain ⟨hentry, hkey⟩ := Store.mem_of_find? hfind
  exact Store.textOf_eq_some.2 ⟨entry, hentry, (Store.idOf_eq hfind).symm, hkey⟩

end Texts

/-! ## Levels -/

section Levels

variable (hs : s.Sound) (h : Stored block txs s t) (hhashes : (txs.map (·.hash)).Nodup)
  (hfault : levelFault? (ReferenceData.collect txs) txs = none)

theorem faults_eq_none (hfault : levelFault? (ReferenceData.collect txs) txs = none) :
    Level.messages.fault? ((ReferenceData.collect txs).texts .messageType) (messageFamilies txs) =
      none ∧
      Level.events.fault? ((ReferenceData.collect txs).texts .eventType) (eventFamilies txs) =
        none ∧
      Level.attributes.fault? ((ReferenceData.collect txs).texts .attributeKey)
        (attributeFamilies txs) = none := by
  rwa [levelFault?, Option.or_eq_none_iff, Option.or_eq_none_iff] at hfault

theorem Stored.messages_ready (h : Stored block txs s t) (hs : s.Sound)
    (hhashes : (txs.map (·.hash)).Nodup) :
    Level.messages.Ready ((ReferenceData.collect txs).texts .messageType) (messageFamilies txs)
      s t :=
  Persist.messages_ready h hs hhashes (by decide) (by decide)

include hs h hhashes hfault

theorem Stored.events_ready :
    Level.events.Ready ((ReferenceData.collect txs).texts .eventType) (eventFamilies txs) s t :=
  Persist.events_ready h hs hhashes (by decide) (by decide) (by decide) (by decide)
    (faults_eq_none hfault).1

theorem Stored.attributes_ready :
    Level.attributes.Ready ((ReferenceData.collect txs).texts .attributeKey) (attributeFamilies txs)
      s t :=
  Persist.attributes_ready h hs hhashes (by decide) (by decide) (by decide) (by decide) (by decide)
    (by decide) (faults_eq_none hfault).1 (faults_eq_none hfault).2.1

omit hhashes hfault in
theorem attributeView_of_stored {entry : Entry AttributeRow}
    (hentry : entry ∈ s.attributes.entries) : t.attributeView entry = s.attributeView entry := by
  obtain ⟨key, hkey⟩ := hs.exists_attributeKey hentry
  have hkept := Progress.textOf_of_stored hs h .attributeKey (by decide) hkey
  rw [Store.attributeView, Store.attributeView, hkept, hkey]

theorem attributeViews_other {parent : Id}
    (hparent : ∀ family ∈ attributeFamilies txs, t.nameOf family.parent ≠ parent) :
    t.viewsBelow .attributes t.attributeView parent =
      s.viewsBelow .attributes s.attributeView parent :=
  Level.attributes.viewsBelow_other (Stored.attributes_ready hs h hhashes hfault)
    (faults_eq_none hfault).2.2 hs h (by decide) rfl
    (fun _ hentry _ _ => attributeView_of_stored hs h hentry) hparent

theorem attributeViews_member {family : Family Attribute}
    (hfamily : family ∈ attributeFamilies txs) :
    t.viewsBelow .attributes t.attributeView (t.nameOf family.parent) =
      overlay Attribute.index Attribute.over family.members
        (s.viewsBelow .attributes s.attributeView (t.nameOf family.parent)) := by
  have hfits := (Level.attributes.fault?_eq_none _).1 (faults_eq_none hfault).2.2 family hfamily
  refine Level.attributes.viewsBelow_member (Stored.attributes_ready hs h hhashes hfault)
    (faults_eq_none hfault).2.2 hs h (by decide) rfl
    (fun _ hentry _ _ => attributeView_of_stored hs h hentry) hfamily ?_
  intro detail hdetail entry _ hsettles
  have hrow := hsettles.row_eq fun _ _ => rfl
  have hkey := Progress.textOf_textId hs h .attributeKey (by decide) (hfits.1 detail hdetail)
  rw [Store.attributeView, hrow, hkey]
  rfl

theorem eventView_of_rest {entry : Entry EventRow} (hentry : entry ∈ s.events.entries)
    (hfind : t.find? .events (TableName.key .events entry.row) = some entry)
    (hfree : ∀ row ∈ written block txs t .events,
      TableName.key .events row ≠ TableName.key .events entry.row) :
    t.eventView entry = s.eventView entry := by
  obtain ⟨text, htext⟩ := hs.exists_eventType hentry
  have hkept := Progress.textOf_of_stored hs h .eventType (by decide) htext
  have hparents := Level.events.name_ne_of_not_written (Stored.events_ready hs h hhashes hfault)
    (faults_eq_none hfault).2.1 hs h (by decide) rfl (map_name_attributeFamilies txs t) hfind hfree
  rw [Store.eventView, Store.eventView, hkept, htext,
    attributeViews_other hs h hhashes hfault hparents]

theorem eventViews_other {parent : Id}
    (hparent : ∀ family ∈ eventFamilies txs, t.nameOf family.parent ≠ parent) :
    t.viewsBelow .events t.eventView parent = s.viewsBelow .events s.eventView parent :=
  Level.events.viewsBelow_other (Stored.events_ready hs h hhashes hfault)
    (faults_eq_none hfault).2.1 hs h (by decide) rfl
    (fun _ hentry => eventView_of_rest hs h hhashes hfault hentry) hparent

theorem eventViews_member {tx : Tx} (htx : tx ∈ txs) {message : Message}
    (hmessage : message ∈ tx.messages) :
    t.viewsBelow .events t.eventView (t.messageId tx message) =
      overlay Event.index Event.over message.events
        (s.viewsBelow .events s.eventView (t.messageId tx message)) := by
  have hfamily : (⟨.message tx message, message.events⟩ : Family Event) ∈ eventFamilies txs :=
    List.mem_flatMap.2 ⟨tx, htx, List.mem_map_of_mem hmessage⟩
  have hfits := (Level.events.fault?_eq_none _).1 (faults_eq_none hfault).2.1 _ hfamily
  refine Level.events.viewsBelow_member (Stored.events_ready hs h hhashes hfault)
    (faults_eq_none hfault).2.1 hs h (by decide) rfl
    (fun _ hentry => eventView_of_rest hs h hhashes hfault hentry) hfamily ?_
  intro event hevent entry hfind hsettles
  have hrow := hsettles.row_eq fun _ _ => rfl
  have htext := Progress.textOf_textId hs h .eventType (by decide) (hfits.1 event hevent)
  have hid : t.nameOf (.event tx message event) = entry.id := Store.idOf_eq hfind
  have hattributes : (⟨.event tx message event, event.attributes⟩ : Family Attribute) ∈
      attributeFamilies txs :=
    List.mem_flatMap.2 ⟨tx, htx, List.mem_flatMap.2 ⟨message, hmessage, List.mem_map_of_mem hevent⟩⟩
  have hbelow := attributeViews_member hs h hhashes hfault hattributes
  have hgives := Store.Gives.of_settles hsettles
  rw [hid, hs.viewsBelow_of_gives Level.attributes hgives] at hbelow
  rw [Store.eventView, hrow, htext, hbelow]
  simp only [Option.map_some, Event.over, hs.attributes_of_eventView]
  rfl

theorem messageView_of_rest {entry : Entry MessageRow} (hentry : entry ∈ s.messages.entries)
    (hfind : t.find? .messages (TableName.key .messages entry.row) = some entry)
    (hfree : ∀ row ∈ written block txs t .messages,
      TableName.key .messages row ≠ TableName.key .messages entry.row) :
    t.messageView entry = s.messageView entry := by
  obtain ⟨text, htext⟩ := hs.exists_messageType hentry
  have hkept := Progress.textOf_of_stored hs h .messageType (by decide) htext
  have hparents := Level.messages.name_ne_of_not_written (Stored.messages_ready h hs hhashes)
    (faults_eq_none hfault).1 hs h (by decide) rfl (map_name_eventFamilies txs t) hfind hfree
  rw [Store.messageView, Store.messageView, hkept, htext,
    eventViews_other hs h hhashes hfault hparents]

theorem messageViews_other {parent : Id} (hparent : ∀ tx ∈ txs, t.txId tx ≠ parent) :
    t.viewsBelow .messages t.messageView parent = s.viewsBelow .messages s.messageView parent :=
  Level.messages.viewsBelow_other (Stored.messages_ready h hs hhashes)
    (faults_eq_none hfault).1 hs h (by decide) rfl
    (fun _ hentry => messageView_of_rest hs h hhashes hfault hentry)
    (forall_mem_messageFamilies.2 hparent)

theorem messageViews_member {tx : Tx} (htx : tx ∈ txs) :
    t.viewsBelow .messages t.messageView (t.txId tx) =
      overlay Message.index Message.over tx.messages
        (s.viewsBelow .messages s.messageView (t.txId tx)) := by
  have hfamily : (⟨.tx tx, tx.messages⟩ : Family Message) ∈ messageFamilies txs :=
    List.mem_map_of_mem htx
  have hfits := (Level.messages.fault?_eq_none _).1 (faults_eq_none hfault).1 _ hfamily
  refine Level.messages.viewsBelow_member (Stored.messages_ready h hs hhashes)
    (faults_eq_none hfault).1 hs h (by decide) rfl
    (fun _ hentry => messageView_of_rest hs h hhashes hfault hentry) hfamily ?_
  intro message hmessage entry hfind hsettles
  have hrow := hsettles.row_eq fun _ _ => rfl
  have htext := Progress.textOf_textId hs h .messageType (by decide)
    (hfits.1 message hmessage)
  have hid : t.messageId tx message = entry.id := Store.idOf_eq hfind
  have hbelow := eventViews_member hs h hhashes hfault htx hmessage
  have hgives := Store.Gives.of_settles hsettles
  rw [hid, hs.viewsBelow_of_gives Level.events hgives] at hbelow
  rw [Store.messageView, hrow, htext, hbelow]
  simp only [Option.map_some, Message.over, hs.events_of_messageView]
  rfl

end Levels

end Persist

end BlockArchive
