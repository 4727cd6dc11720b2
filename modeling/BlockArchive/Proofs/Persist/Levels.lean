import BlockArchive.Proofs.Persist.Stages

/-!
# The levels below the transactions

A level can be written when its parents have different ids and its texts are stored. It fails with
its first fault, and once it is stored the level below it can be written.

## Main definitions

- `Persist.Level.Ready`: what is known when the rows of a level are made

## Main statements

- `Persist.Level.ends_stage`: making the rows of a level and storing them
- `Persist.Level.names_next`: the ids of the entities of a stored level are different
- `Persist.messages_ready`, `Persist.events_ready`, `Persist.attributes_ready`: each level can be
  written once the one above is stored
-/

namespace BlockArchive

namespace Persist

variable {block : Block} {txs : List Tx} {s t : Store} {done : List TableName}

/-- What is known of the parents and the texts of a level when its rows are made. -/
structure Level.Ready {α : Type} (L : Level α) (known : List String) (families : List (Family α))
    (s t : Store) : Prop where
  nodup : (families.map (t.nameOf ·.parent)).Nodup
  parents : ∀ family ∈ families, t.nameOf family.parent ∈ (t.get L.above).rows
  texts : ∀ text ∈ known, t.textId L.kind text ∈ (t.get L.kind.table).rows
  /-- The parents have the ids that they had or were given. -/
  names : ∀ family ∈ families, s.Names family.parent (t.nameOf family.parent)

namespace Level

variable {α : Type} (L : Level α) {known : List String} {families : List (Family α)}

/-- The failure by which a fault of a level is told names the parent. -/
theorem tells_failure {fault : Fault} (hfault : L.fault? known families = some fault)
    (hnames : ∀ family ∈ families, s.Names family.parent (t.nameOf family.parent)) :
    fault.Tells s (fault.failure t.nameOf) := by
  cases fault with
  | refused cause => rfl
  | unregistered kind text => rfl
  | repeated kind parent index =>
    obtain ⟨family, hfamily, hamong⟩ := List.exists_of_findSome?_eq_some hfault
    have hparent := L.parent_of_faultAmong? known hamong
    refine ⟨t.nameOf parent, ?_, rfl⟩
    rw [hparent]
    exact hnames family hfamily

/-- Making the rows of a level fails with the first fault of the level. -/
theorem ends_place (h : L.Ready known families s t) {lookup : String → Except Failure Id}
    (hlookup : ∀ text, lookup text =
      if text ∈ known then .ok (t.textId L.kind text)
      else .error (.unregisteredReference L.kind text))
    {candidates : List (Candidate L.table.Row)}
    (hcandidates : candidates = families.flatMap fun family =>
      family.members.map (L.candidate lookup (t.nameOf family.parent))) {session : Session} :
    Ends (Fault.Tells s) (WriteM.ofExcept (placeAll L.kind.entity L.slot candidates)) session
      (L.fault? known families)
      fun rows after => rows = inOrder L.slot (L.rows t.nameOf (t.textId L.kind) families) ∧
        after = session := by
  rw [hcandidates, L.placeAll_families t.nameOf hlookup h.nodup]
  cases hfault : L.fault? known families with
  | some fault => exact WriteM.ends_ofExcept_error (L.tells_failure hfault h.names)
  | none => exact WriteM.ends_ofExcept_ok ⟨rfl, rfl⟩

theorem resolves (h : L.Ready known families s t) (hfault : L.fault? known families = none) :
    ∀ row ∈ inOrder L.slot (L.rows t.nameOf (t.textId L.kind) families),
      ∀ ref ∈ L.table.references row, t.Resolves ref := by
  intro row hrow ref href
  rw [mem_inOrder (L.nodup_slots known t.nameOf (t.textId L.kind) h.nodup hfault),
    L.mem_rows] at hrow
  obtain ⟨family, hfamily, a, ha, rfl⟩ := hrow
  have hknown := ((L.fault?_eq_none known).1 hfault family hfamily).1 a ha
  rw [Store.Resolves]
  rcases L.target_row _ _ _ ref href with ⟨htarget, hid⟩ | ⟨htarget, hid⟩
  · rw [htarget, hid]
    exact h.parents family hfamily
  · rw [htarget, hid]
    exact h.texts _ hknown

theorem nodup_written (hwritten : written block txs t L.table =
      inOrder L.slot (L.rows t.nameOf (t.textId L.kind) families)) :
    ((written block txs t L.table).map L.table.key).Nodup := by
  have hslots := nodup_inOrder L.slot (L.rows t.nameOf (t.textId L.kind) families)
  rw [← hwritten] at hslots
  have hkeys : (written block txs t L.table).map L.table.key =
      ((written block txs t L.table).map L.slot).map .slot := by
    rw [List.map_map]
    exact List.map_congr_left fun row _ => L.key_eq row
  rw [hkeys]
  exact hslots.map slot_injective

theorem mem_written (h : L.Ready known families s t) (hfault : L.fault? known families = none)
    (hwritten : written block txs t L.table =
      inOrder L.slot (L.rows t.nameOf (t.textId L.kind) families)) {row : L.table.Row} :
    row ∈ written block txs t L.table ↔ ∃ family ∈ families, ∃ a ∈ family.members,
      row = L.row (t.nameOf family.parent) (t.textId L.kind (L.text a)) a := by
  rw [hwritten, mem_inOrder (L.nodup_slots known t.nameOf (t.textId L.kind) h.nodup hfault),
    L.mem_rows]

/-- The stage of a level fails with the first fault of the level, or else if one of the texts of its
rows cannot be sent. Otherwise as many rows are told as there are entities, and the ids of these can
be looked up by their places. -/
theorem ends_stage (h : L.Ready known families s t) (hprogress : Progress block txs s t done)
    (hn : L.table ∉ done) (hkind : L.table ≠ .failedBlocks ∧ L.table ≠ .blocks)
    (hsources : ∀ m ∈ L.table :: done, L.table ∉ sources m)
    (hwritten : written block txs t L.table =
      inOrder L.slot (L.rows t.nameOf (t.textId L.kind) families))
    {lookup : String → Except Failure Id}
    (hlookup : ∀ text, lookup text =
      if text ∈ known then .ok (t.textId L.kind text)
      else .error (.unregisteredReference L.kind text))
    {candidates : List (Candidate L.table.Row)}
    (hcandidates : candidates = families.flatMap fun family =>
      family.members.map (L.candidate lookup (t.nameOf family.parent))) {session : Session}
    (ht : session.store = t) :
    Ends (Fault.Tells s)
      (WriteM.ofExcept (placeAll L.kind.entity L.slot candidates) >>= fun rows =>
        WriteM.query (Store.upsertAll L.table rows)) session
      ((L.fault? known families).or
        ((unsentFault? ((written block txs t L.table).flatMap L.table.texts)).map .refused))
      fun told after => L.fault? known families = none ∧
        after.store = Persist.write block txs L.table t ∧
        Progress block txs s (Persist.write block txs L.table t) (L.table :: done) ∧
        told.length = (families.flatMap fun family => family.members).length ∧
        (Entry.idsBy L.slot told).size = told.length ∧
        ∀ family ∈ families, ∀ a ∈ family.members,
          (Entry.idsBy L.slot told)[(⟨t.nameOf family.parent, L.index a⟩ : Slot)]? =
            some ((Persist.write block txs L.table t).idOf L.table
              (.slot ⟨t.nameOf family.parent, L.index a⟩)) := by
  apply (L.ends_place h hlookup hcandidates).bind
  rintro hfault rows _ ⟨rfl, rfl⟩
  have hnodup : ((written block txs t L.table).map L.table.key).Nodup := L.nodup_written hwritten
  have hbatch : Store.batchFault? L.table (written block txs t L.table) =
      unsentFault? ((written block txs t L.table).flatMap L.table.texts) :=
    batchFault?_of_nodup hkind.2 hnodup
  have hwarranted : ∀ row, L.table.Warranted row := by
    intro row
    have hne := hkind.2
    generalize L.table = n at row hne
    cases n <;> trivial
  have hlength : (written block txs t L.table).length =
      (families.flatMap fun family => family.members).length := by
    rw [hwritten, (inOrder_perm (L.nodup_slots known _ _ h.nodup hfault)).length_eq, L.length_rows]
  have hrefs := L.resolves h hfault
  rw [← hbatch, ← hwritten]
  rw [← hwritten] at hrefs
  subst ht
  have hends := hprogress.ends_upsertAll L.table hn hkind.1 hsources hwarranted hrefs
    (.of_nodup hnodup)
  apply (ends_refused hends).mono
  rintro - told after ⟨rfl, hstore, hafter⟩
  rw [hstore] at hafter
  have hown := hsources L.table List.mem_cons_self
  refine ⟨hfault, hstore, hafter, (Store.length_told ..).trans hlength, ?_, ?_⟩
  · rw [Store.size_idsBy_told slot_injective L.key_eq hnodup, Store.length_told]
  intro family hfamily a ha
  rw [hafter.getElem?_idsBy hprogress.sound hown _ slot_injective L.key_eq, if_pos]
  exact List.mem_map.2
    ⟨_, (L.mem_written h hfault hwritten).2 ⟨family, hfamily, a, ha, rfl⟩, L.slot_row _ _ _⟩

theorem settles_member (h : L.Ready known families s t) (hfault : L.fault? known families = none)
    (hs : s.Sound) (hprogress : Progress block txs s t done) (hn : L.table ∈ done)
    (hwritten : written block txs t L.table =
      inOrder L.slot (L.rows t.nameOf (t.textId L.kind) families))
    {family : Family α} (hfamily : family ∈ families) {a : α} (ha : a ∈ family.members) :
    ∃ entry, t.find? L.table (.slot ⟨t.nameOf family.parent, L.index a⟩) = some entry ∧
      (s.get L.table).Settles L.table.key L.table.refresh
        (L.row (t.nameOf family.parent) (t.textId L.kind (L.text a)) a) entry := by
  have hsettles := hprogress.settles hs hn
    ((L.mem_written h hfault hwritten).2 ⟨family, hfamily, a, ha, rfl⟩)
  rwa [L.key_eq, L.slot_row] at hsettles

/-- The ids of the entities of a stored level are different, and are those of rows. -/
theorem names_next (h : L.Ready known families s t) (hfault : L.fault? known families = none)
    (hs : s.Sound) (hprogress : Progress block txs s t done) (hn : L.table ∈ done)
    (hwritten : written block txs t L.table =
      inOrder L.slot (L.rows t.nameOf (t.textId L.kind) families))
    {β : Type} {next : List (Family β)}
    (hnext : next.map (t.nameOf ·.parent) =
      (L.rows t.nameOf (t.textId L.kind) families).map fun row =>
        t.idOf L.table (.slot (L.slot row))) :
    (next.map (t.nameOf ·.parent)).Nodup ∧
      ∀ family ∈ next, t.nameOf family.parent ∈ (t.get L.table).rows := by
  have hslots := L.nodup_slots known t.nameOf (t.textId L.kind) h.nodup hfault
  have hstored : ∀ row ∈ L.rows t.nameOf (t.textId L.kind) families,
      ∃ entry, t.find? L.table (.slot (L.slot row)) = some entry := by
    intro row hrow
    obtain ⟨family, hfamily, a, ha, rfl⟩ := (L.mem_rows _ _).1 hrow
    obtain ⟨entry, hfind, _⟩ := L.settles_member h hfault hs hprogress hn hwritten hfamily ha
    rw [L.slot_row]
    exact ⟨entry, hfind⟩
  constructor
  · have hkeys : ((L.rows t.nameOf (t.textId L.kind) families).map
        fun row => Key.slot (L.slot row)).Nodup := by
      have := hslots.map slot_injective
      rwa [List.map_map] at this
    have hids := Store.nodup_idOf (s := t) (n := L.table) hkeys fun k hk => by
      obtain ⟨row, hrow, rfl⟩ := List.mem_map.1 hk
      exact hstored row hrow
    rw [List.map_map] at hids
    rw [hnext]
    exact hids
  · intro family hfamily
    have hmem : t.nameOf family.parent ∈ next.map (t.nameOf ·.parent) :=
      List.mem_map_of_mem (f := (t.nameOf ·.parent)) hfamily
    rw [hnext] at hmem
    obtain ⟨row, hrow, hname⟩ := List.mem_map.1 hmem
    obtain ⟨entry, hfind⟩ := hstored row hrow
    rw [← hname]
    exact Store.resolves_idOf hfind ""

end Level

theorem map_name_eventFamilies (txs : List Tx) (t : Store) :
    (eventFamilies txs).map (t.nameOf ·.parent) =
      (Level.messages.rows t.nameOf (t.textId .messageType) (messageFamilies txs)).map fun row =>
        t.idOf .messages (.slot row.slot) := by
  simp only [eventFamilies, messageFamilies, Level.rows, Level.rowsBelow, List.map_flatMap,
    List.flatMap_map, List.map_map]
  rfl

theorem map_name_attributeFamilies (txs : List Tx) (t : Store) :
    (attributeFamilies txs).map (t.nameOf ·.parent) =
      (Level.events.rows t.nameOf (t.textId .eventType) (eventFamilies txs)).map fun row =>
        t.idOf .events (.slot row.slot) := by
  simp only [attributeFamilies, eventFamilies, Level.rows, Level.rowsBelow, List.map_flatMap,
    List.flatMap_map, List.map_map, List.flatMap_assoc]
  rfl

section Ready

variable (h : Progress block txs s t done) (hs : s.Sound) (hhashes : (txs.map (·.hash)).Nodup)

include h hs

theorem Progress.mem_rows_of_text {kind : ReferenceKind} (hkind : kind.table ∈ done) :
    ∀ text ∈ (ReferenceData.collect txs).texts kind,
      t.textId kind text ∈ (t.get kind.table).rows := by
  intro text htext
  obtain ⟨entry, hfind⟩ := h.exists_text hs hkind htext
  exact Store.resolves_idOf hfind ""

theorem Progress.settles_tx (htxes : .txes ∈ done) {tx : Tx} (htx : tx ∈ txs) :
    ∃ entry, t.find? .txes (.text tx.hash) = some entry ∧
      s.Gives .txes (.text tx.hash) entry.id := by
  obtain ⟨entry, hfind, hsettles⟩ := h.settles hs htxes
    (List.mem_map_of_mem htx : _ ∈ written block txs t .txes)
  exact ⟨entry, hfind, Store.Gives.of_settles hsettles⟩

include hhashes

theorem messages_ready (htxes : .txes ∈ done) (htypes : .messageTypes ∈ done) :
    Level.messages.Ready ((ReferenceData.collect txs).texts .messageType) (messageFamilies txs)
      s t where
  nodup := by
    have hkeys : (txs.map fun tx => Key.text tx.hash).Nodup := by
      have := hhashes.map text_injective
      rwa [List.map_map] at this
    have hids := Store.nodup_idOf (s := t) (n := .txes) hkeys fun k hk => by
      obtain ⟨tx, htx, rfl⟩ := List.mem_map.1 hk
      obtain ⟨entry, hfind, _⟩ := h.settles_tx hs htxes htx
      exact ⟨entry, hfind⟩
    rw [List.map_map] at hids
    rw [messageFamilies, List.map_map]
    exact hids
  parents := by
    rw [forall_mem_messageFamilies]
    intro tx htx
    obtain ⟨entry, hfind, _⟩ := h.settles_tx hs htxes htx
    exact Store.resolves_idOf hfind ""
  texts := h.mem_rows_of_text hs htypes
  names := by
    rw [forall_mem_messageFamilies]
    intro tx htx
    obtain ⟨entry, hfind, hgives⟩ := h.settles_tx hs htxes htx
    rwa [← Store.idOf_eq hfind] at hgives

theorem events_ready (htxes : .txes ∈ done) (htypes : .messageTypes ∈ done)
    (hmessages : .messages ∈ done) (heventTypes : .eventTypes ∈ done)
    (hfault : Level.messages.fault? ((ReferenceData.collect txs).texts .messageType)
      (messageFamilies txs) = none) :
    Level.events.Ready ((ReferenceData.collect txs).texts .eventType) (eventFamilies txs) s t := by
  have hready := messages_ready h hs hhashes htxes htypes
  obtain ⟨hnodup, hparents⟩ :=
    Level.messages.names_next hready hfault hs h hmessages rfl (map_name_eventFamilies txs t)
  refine ⟨hnodup, hparents, h.mem_rows_of_text hs heventTypes, ?_⟩
  rw [forall_mem_eventFamilies]
  intro tx htx message hmessage
  have hfamily : (⟨.tx tx, tx.messages⟩ : Family Message) ∈ messageFamilies txs :=
    List.mem_map_of_mem htx
  obtain ⟨entry, hfind, hsettles⟩ :=
    Level.messages.settles_member hready hfault hs h hmessages rfl hfamily hmessage
  have hgives := Store.Gives.of_settles hsettles
  rw [← Store.idOf_eq hfind] at hgives
  exact ⟨t.txId tx, hready.names _ hfamily, hgives⟩

theorem attributes_ready (htxes : .txes ∈ done) (htypes : .messageTypes ∈ done)
    (hmessages : .messages ∈ done) (heventTypes : .eventTypes ∈ done) (hevents : .events ∈ done)
    (hkeys : .attributeKeys ∈ done)
    (hmessageFault : Level.messages.fault? ((ReferenceData.collect txs).texts .messageType)
      (messageFamilies txs) = none)
    (hfault : Level.events.fault? ((ReferenceData.collect txs).texts .eventType)
      (eventFamilies txs) = none) :
    Level.attributes.Ready ((ReferenceData.collect txs).texts .attributeKey) (attributeFamilies txs)
      s t := by
  have hready := events_ready h hs hhashes htxes htypes hmessages heventTypes hmessageFault
  obtain ⟨hnodup, hparents⟩ :=
    Level.events.names_next hready hfault hs h hevents rfl (map_name_attributeFamilies txs t)
  refine ⟨hnodup, hparents, h.mem_rows_of_text hs hkeys, ?_⟩
  rw [forall_mem_attributeFamilies]
  intro tx htx message hmessage event hevent
  have hfamily : (⟨.message tx message, message.events⟩ : Family Event) ∈ eventFamilies txs :=
    List.mem_flatMap.2 ⟨tx, htx, List.mem_map_of_mem hmessage⟩
  obtain ⟨entry, hfind, hsettles⟩ :=
    Level.events.settles_member hready hfault hs h hevents rfl hfamily hevent
  have hgives := Store.Gives.of_settles hsettles
  rw [← Store.idOf_eq hfind] at hgives
  obtain ⟨txId, htxId, hmessageId⟩ := hready.names _ hfamily
  exact ⟨txId, t.messageId tx message, htxId, hmessageId, hgives⟩

end Ready

end Persist

end BlockArchive
