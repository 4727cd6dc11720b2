import BlockArchive.Proofs.Marking
import BlockArchive.Proofs.Persist.Written

/-!
# The stages before the messages

Each stage fails with its own faults and otherwise writes one table, or one for each kind of texts,
and tells the ids that the next stages need.

## Main definitions

- `Persist.Resolved`: the texts can be looked up

## Main statements

- `Persist.ends_block`: the block itself
- `Persist.Progress.ends_upsertAll`: writing a table
- `Persist.ends_addresses`, `Persist.ends_txes`, `Persist.ends_references`: the stages of the
  signers, of the transactions and of the shared texts
-/

namespace BlockArchive

namespace Persist

variable {block : Block} {txs : List Tx} {s t : Store} {done : List TableName}

/-! ## Refused texts -/

theorem unsentFault?_congr {a b : List String} (h : ∀ text, text ∈ a ↔ text ∈ b) :
    unsentFault? a = unsentFault? b := by
  simp only [unsentFault?, h]

/-- Apart from blocks, a row is refused for its texts alone. -/
theorem findSome?_refusal? {n : TableName} (hn : n ≠ .blocks) (rows : List n.Row) :
    rows.findSome? n.refusal? = unsentFault? (rows.flatMap n.texts) := by
  have hrow : ∀ row, n.refusal? row = unsentFault? (n.texts row) := by
    intro row
    cases n <;> first | rfl | exact absurd rfl hn
  induction rows with
  | nil => rfl
  | cons row rest ih =>
    rw [List.findSome?_cons, hrow, ih, List.flatMap_cons]
    simp only [unsentFault?, List.mem_append, or_and_right, exists_or]
    by_cases hzero : ∃ text ∈ n.texts row, HasZero text
    · rw [if_pos hzero, if_pos (Or.inl hzero)]
    · rw [if_neg hzero]
      simp only [hzero, false_or]

/-- A statement of texts is refused for one of the texts, or because two of them are the same. -/
theorem statementFault?_texts {n : TableName} (hn : n ≠ .blocks) (rows : List n.Row)
    (text : n.Row → String) (hkey : ∀ row, n.key row = .text (text row))
    (htexts : ∀ row, n.texts row = [text row]) :
    Store.statementFault? n rows =
      (unsentFault? (rows.map text)).or (repeatFault? (rows.map text)) := by
  have hmap : rows.map n.key = (rows.map text).map .text := by
    rw [List.map_map]
    exact List.map_congr_left fun row _ => hkey row
  have hnodup : (rows.map n.key).Nodup ↔ (rows.map text).Nodup := by
    rw [hmap]
    exact List.nodup_map_iff fun a b h => Key.text.inj h
  have hflat : rows.flatMap n.texts = rows.map text := by
    rw [List.map_eq_flatMap]
    exact List.flatMap_congr fun row _ => htexts row
  rw [Store.statementFault?, findSome?_refusal? hn, hflat, repeatFault?]
  simp only [hnodup]

/-- A batch that repeats no key is refused for one of its texts. -/
theorem batchFault?_of_nodup {n : TableName} (hn : n ≠ .blocks) {rows : List n.Row}
    (hnodup : (rows.map n.key).Nodup) :
    Store.batchFault? n rows = unsentFault? (rows.flatMap n.texts) := by
  rw [Store.batchFault?_of_nodup hnodup, findSome?_refusal? hn]

/-! ## The block -/

variable {pipeline : Pipeline}

theorem refusal?_row : TableName.refusal? .blocks (block.row pipeline) = timeFault? block := by
  have hnone : ¬ ∃ text ∈ TableName.texts .blocks (block.row pipeline), HasZero text := by
    simp [TableName.texts]
  rw [TableName.refusal?, if_neg hnone]
  rfl

theorem references_told_block {entry : Entry BlockRow}
    (h : entry ∈ t.told .blocks [block.row pipeline]) :
    TableName.references .blocks entry.row = [⟨"blockchain_id", .chains, block.chain⟩] := by
  have hkey := Table.Keyed.key_offer TableName.blocks.keepsKey_refresh (t.get .blocks)
    (block.row pipeline)
  rw [← List.mem_singleton.1 h] at hkey
  have hchain : entry.row.chain = block.chain := congrArg Slot.parent (Key.slot.inj hkey)
  rw [TableName.references, hchain]

/-- The stage of the block itself fails if its time cannot be stored or its chain is not there. -/
theorem ends_block (pipeline : Pipeline) (block : Block) (ht : t.Sound) :
    Ends (fun fault cause => cause = fault) (Store.upsertOne .blocks (block.row pipeline)) t
      ((timeFault? block).or (chainFault? t block))
      fun id u => u = t.offer .blocks [block.row pipeline] ∧
        id = u.idOf .blocks (.slot (block.row pipeline).slot) := by
  by_cases hchain : block.chain ∈ t.chains.rows
  · rw [chainFault?, if_pos hchain, Option.or_none, ← refusal?_row]
    apply Store.ends_upsertOne ht
    intro ref href
    cases List.mem_singleton.1 href
    exact hchain
  · -- the one row that is told refers to the chain that is missing
    have hmissing : (t.offer .blocks [block.row pipeline]).missingReferent? .blocks
        (t.told .blocks [block.row pipeline]) =
          some (.missingReferent .blocks "blockchain_id") := by
      have hunresolved : ¬ (t.offer .blocks [block.row pipeline]).Resolves
          ⟨"blockchain_id", .chains, block.chain⟩ := hchain
      rw [Store.missingReferent?, Store.told_singleton, List.flatMap_singleton,
        references_told_block (t := t) List.mem_cons_self, List.findSome?_singleton,
        if_neg hunresolved]
    rw [chainFault?, if_neg hchain, ← refusal?_row]
    rcases Store.upsert_cases (ht.keyed .blocks) [block.row pipeline] with
      ⟨cause, count, hcause, hend⟩ | ⟨-, hnone, -⟩
    · rw [Store.statementFault?_singleton, hmissing] at hcause
      rw [hcause]
      exact Ends.error (bind_of_error hend) rfl
    · rw [hmissing] at hnone
      cases hnone

/-! ## Writing a table -/

/-- Before any table is written only the marker has gone. -/
theorem Progress.start (block : Block) (txs : List Tx) (hs : s.Sound) :
    Progress block txs s (cleared block s) [] where
  sound := hs.unmarked .txs block.marker
  tables n h := by cases h
  rest n _ := rfl
  oneByKey n h := by cases h
  markers h := by cases h

/-- Writing a table whose rows refer to what is there. -/
theorem Progress.ends_upsertAll (h : Progress block txs s t done) (n : TableName) (hn : n ∉ done)
    (hmarkers : n ≠ .failedBlocks) (hsources : ∀ m ∈ n :: done, n ∉ sources m)
    (hwarranted : ∀ row, n.Warranted row)
    (hrefs : ∀ row ∈ written block txs t n, ∀ ref ∈ n.references row, t.Resolves ref)
    (hone : Table.OneByKey n.key (written block txs t n)) :
    Ends (fun fault cause => cause = fault) (Store.upsertAll n (written block txs t n)) t
      (Store.batchFault? n (written block txs t n))
      fun told u => told = t.told n (written block txs t n) ∧ u = Persist.write block txs n t ∧
        Progress block txs s u (n :: done) := by
  have hrows : ∀ row ∈ written block txs t n, n.Warranted row := fun row _ => hwarranted row
  apply (Store.ends_upsertAll h.sound hrows hrefs).mono
  rintro - told u ⟨rfl, rfl⟩
  exact ⟨rfl, rfl, h.write hn hmarkers hsources hrows hrefs hone⟩

@[simp] theorem idOf_write_of_ne {n m : TableName} (h : m ≠ n) (k : Key) :
    (write block txs n t).idOf m k = t.idOf m k :=
  Store.idOf_offer_of_ne t _ h k

/-- The ids that are told when a table is written. -/
theorem Progress.getElem?_idsBy {n : TableName} (ht : t.Sound)
    (h : Progress block txs s (Persist.write block txs n t) (n :: done)) (hn : n ∉ sources n)
    {κ : Type}
    [Ord κ] [Std.TransOrd κ] [Std.LawfulEqOrd κ] [DecidableEq κ] (part : n.Row → κ) {wrap : κ → Key}
    (hinj : Function.Injective wrap) (hkey : ∀ row, n.key row = wrap (part row)) (k : κ) :
    (Entry.idsBy part (t.told n (written block txs t n)))[k]? =
      if k ∈ (written block txs t n).map part then
        some ((Persist.write block txs n t).idOf n (wrap k)) else none := by
  have hone := h.oneByKey n List.mem_cons_self
  rw [Progress.written_write hn] at hone
  exact Store.getElem?_idsBy_told ht hinj hkey hone k

/-! ## Addresses and transactions -/

theorem ends_refused {α : Type} {statement : StoreM α} {cause : Option QueryError}
    {P : α → Store → Prop} {session : Session}
    (h : Ends (fun fault cause => cause = fault) statement session.store cause P) :
    Ends (Fault.Tells s) (WriteM.query statement) session (cause.map .refused)
      fun answer after => P answer after.store :=
  WriteM.ends_query Fault.refused (fun _ => rfl) h

theorem text_injective : Function.Injective Key.text := fun _ _ => Key.text.inj

theorem slot_injective : Function.Injective Key.slot := fun _ _ => Key.slot.inj

/-- The stage of the addresses fails if one of them cannot be sent. -/
theorem ends_addresses (h : Progress block txs s t done) (hn : .addresses ∉ done)
    (hsources : ∀ m ∈ TableName.addresses :: done, .addresses ∉ sources m) :
    Ends (fun fault cause => cause = fault) (storeAddresses (ReferenceData.collect txs)) t
      (unsentFault? (ReferenceData.collect txs).signers.toList)
      fun addresses u => u = write block txs .addresses t ∧
        Progress block txs s u (.addresses :: done) ∧
        addresses.size = (ReferenceData.collect txs).signers.toList.length ∧
        ∀ tx ∈ txs, ∀ address, tx.signer = some address →
          addresses[address]? = some (u.idOf .addresses (.text address)) := by
  have hnodup : ((written block txs t .addresses).map (TableName.key .addresses)).Nodup :=
    (ReferenceData.nodup_signers _).map text_injective
  have hfault : Store.batchFault? .addresses (written block txs t .addresses) =
      unsentFault? (ReferenceData.collect txs).signers.toList := by
    rw [batchFault?_of_nodup TableName.noConfusion hnodup, written]
    exact congrArg unsentFault? (List.flatMap_singleton' _)
  have hends := h.ends_upsertAll .addresses hn TableName.noConfusion hsources (fun _ => trivial)
    (fun row _ ref href => by cases href) (.of_nodup hnodup)
  rw [hfault] at hends
  unfold storeAddresses storeAddressesBy
  apply hends.last
  rintro - told u ⟨rfl, rfl, hu⟩
  refine Ends.pure ⟨rfl, hu, ?_, fun tx htx address hsigner => ?_⟩
  · rw [Store.size_idsBy_told text_injective (fun _ => rfl) hnodup, written]
  rw [hu.getElem?_idsBy h.sound (by decide) _ text_injective (fun _ => rfl), if_pos]
  rw [List.map_id']
  exact mem_written_address htx hsigner

theorem mapM_ok {ε α β : Type} {f : α → Except ε β} {g : α → β} {l : List α}
    (h : ∀ a ∈ l, f a = .ok (g a)) : l.mapM f = .ok (l.map g) := by
  induction l with
  | nil => rfl
  | cons a rest ih =>
    rw [List.mapM_cons, h a List.mem_cons_self,
      ih fun b hb => h b (List.mem_cons_of_mem _ hb)]
    rfl

theorem txRows_eq {blockId : Id} {addresses : Std.ExtTreeMap String Id}
    (hblock : blockId = t.idOf .blocks (.slot (block.row .txs).slot))
    (haddresses : ∀ tx ∈ txs, ∀ address, tx.signer = some address →
      addresses[address]? = some (t.idOf .addresses (.text address))) :
    txRows blockId addresses txs = .ok (written block txs t .txes) := by
  apply mapM_ok
  intro tx htx
  rw [txRow]
  cases hsigner : tx.signer with
  | none => rw [hblock]; rfl
  | some address =>
    have hid : generatedId addresses address "address" address =
        .ok (t.idOf .addresses (.text address)) := by
      rw [generatedId, haddresses tx htx address hsigner]
    simp only [Option.mapM_some, hid, hblock]
    rfl

theorem Progress.resolves_txes (h : Progress block txs s t done) (hs : s.Sound)
    (hblocks : .blocks ∈ done) (haddresses : .addresses ∈ done) :
    ∀ row ∈ written block txs t .txes, ∀ ref ∈ TableName.references .txes row, t.Resolves ref := by
  intro row hrow ref href
  obtain ⟨tx, htx, rfl⟩ := List.mem_map.1 hrow
  rcases List.mem_cons.1 href with rfl | href
  · obtain ⟨entry, hfind, _⟩ := h.settles hs hblocks (mem_written_block block txs t)
    exact Store.resolves_idOf hfind _
  · obtain ⟨id, hid, rfl⟩ := List.mem_map.1 href
    obtain ⟨address, hsigner, rfl⟩ := Option.map_eq_some_iff.1 (Option.mem_toList.1 hid)
    obtain ⟨entry, hfind, _⟩ := h.settles hs haddresses (mem_written_address htx hsigner)
    exact Store.resolves_idOf hfind _

/-- The stage of the transactions fails if one of the hashes cannot be sent. -/
theorem ends_txes (h : Progress block txs s t done) (hs : s.Sound)
    (hhashes : (txs.map (·.hash)).Nodup) (hn : .txes ∉ done) (hblocks : .blocks ∈ done)
    (hsigners : .addresses ∈ done) (hsources : ∀ m ∈ TableName.txes :: done, .txes ∉ sources m)
    {blockId : Id} {addresses : Std.ExtTreeMap String Id}
    (hblock : blockId = t.idOf .blocks (.slot (block.row .txs).slot))
    (haddresses : ∀ tx ∈ txs, ∀ address, tx.signer = some address →
      addresses[address]? = some (t.idOf .addresses (.text address)))
    {session : Session} (ht : session.store = t) :
    Ends (Fault.Tells s) (storeTxes blockId addresses txs) session
      ((unsentFault? (txs.map (·.hash))).map .refused)
      fun txes after => after.store = write block txs .txes t ∧
        Progress block txs s after.store (.txes :: done) ∧ txes.length = txs.length ∧
        ∀ tx ∈ txs, (Entry.idsBy TxRow.hash txes)[tx.hash]? = some (after.store.txId tx) := by
  have hmap : (written block txs t .txes).map TxRow.hash = txs.map (·.hash) := by
    rw [written, List.map_map]
    rfl
  have hnodup : ((written block txs t .txes).map (TableName.key .txes)).Nodup := by
    rw [← hmap] at hhashes
    have hkeys := hhashes.map text_injective
    rwa [List.map_map] at hkeys
  have hfault : Store.batchFault? .txes (written block txs t .txes) =
      unsentFault? (txs.map (·.hash)) := by
    rw [batchFault?_of_nodup TableName.noConfusion hnodup, ← hmap, List.map_eq_flatMap]
    rfl
  unfold storeTxes storeTxesBy
  rw [txRows_eq hblock haddresses, ← hfault]
  apply (WriteM.ends_ofExcept_ok (Q := fun rows after => rows = written block txs t .txes ∧
    after = session) ⟨rfl, rfl⟩).next
  rintro rows _ ⟨rfl, rfl⟩
  subst ht
  have hends := h.ends_upsertAll .txes hn TableName.noConfusion hsources (fun _ => trivial)
    (h.resolves_txes hs hblocks hsigners) (.of_nodup hnodup)
  apply (ends_refused hends).mono
  rintro - told after ⟨rfl, hstore, hafter⟩
  refine ⟨hstore, hafter, ?_, fun tx htx => ?_⟩
  · rw [Store.length_told, written, List.length_map]
  rw [hstore] at hafter ⊢
  rw [hafter.getElem?_idsBy h.sound (by decide) _ text_injective (fun _ => rfl), if_pos]
  · rfl
  · rw [hmap]
    exact List.mem_map_of_mem htx

/-! ## Shared texts -/

/-- The batch of one kind of texts is refused for the first fault of its statements. -/
theorem batchFault?_texts (block : Block) (txs : List Tx) (t : Store) (kind : ReferenceKind) :
    Store.batchFault? kind.table (written block txs t kind.table) =
      (kind.statements ((ReferenceData.collect txs).texts kind)).findSome?
        fun texts => (unsentFault? texts).or (repeatFault? texts) := by
  cases kind
  all_goals
    refine findSome?_congr fun texts _ => ?_
    have h := statementFault?_texts TableName.noConfusion texts (fun text => text)
      (fun _ => rfl) (fun _ => rfl)
    rw [List.map_id'] at h
    exact h

/-- The stage of one kind of texts fails if one of them cannot be sent or two that one statement
sends are the same. -/
theorem Progress.ends_texts (h : Progress block txs s t done) (kind : ReferenceKind)
    (hn : kind.table ∉ done) (hsources : ∀ m ∈ kind.table :: done, kind.table ∉ sources m) :
    Ends (fun fault cause => cause = fault)
      (Store.upsertAll kind.table (written block txs t kind.table)) t
      ((kind.statements ((ReferenceData.collect txs).texts kind)).findSome?
        fun texts => (unsentFault? texts).or (repeatFault? texts))
      fun told u => told = t.told kind.table (written block txs t kind.table) ∧
        u = Persist.write block txs kind.table t ∧ Progress block txs s u (kind.table :: done) := by
  rw [← batchFault?_texts block txs t kind]
  apply h.ends_upsertAll kind.table hn _ hsources
  · cases kind <;> exact fun _ => trivial
  · cases kind <;> exact fun row _ ref href => by cases href
  · -- a text is its own key
    cases kind <;> exact fun a _ b _ hkey => Key.text.inj hkey
  · cases kind <;> exact TableName.noConfusion

/-- The store after the shared texts have been written. -/
def writeTexts (block : Block) (txs : List Tx) (t : Store) : Store :=
  write block txs .attributeKeys (write block txs .eventTypes (write block txs .messageTypes t))

/-- The texts of a kind can be looked up once they are stored. -/
def Resolved (data : ReferenceData) (refs : ResolvedReferences) (t : Store) : Prop :=
  ∀ kind text, refs.id kind text =
    if text ∈ data.texts kind then .ok (t.textId kind text)
    else .error (.unregisteredReference kind text)

theorem id_eq_of_getElem?_ids {refs : ResolvedReferences} {kind : ReferenceKind} {text : String}
    {known : List String} {id : Id}
    (h : (refs.ids kind)[text]? = if text ∈ known then some id else none) :
    refs.id kind text =
      if text ∈ known then .ok id else .error (.unregisteredReference kind text) := by
  rw [ResolvedReferences.id, h]
  by_cases hknown : text ∈ known
  · rw [if_pos hknown, if_pos hknown]
  · rw [if_neg hknown, if_neg hknown]

/-- Once the three tables are written, one after the other, the ids that they tell are those of the
texts. -/
theorem resolved_writeTexts (ht : t.Sound)
    (h₁ : Progress block txs s (write block txs .messageTypes t) (.messageTypes :: done))
    (h₂ : Progress block txs s (write block txs .eventTypes (write block txs .messageTypes t))
      (.eventTypes :: .messageTypes :: done))
    (h₃ : Progress block txs s (writeTexts block txs t)
      (.attributeKeys :: .eventTypes :: .messageTypes :: done)) :
    Resolved (ReferenceData.collect txs)
      (.ofEntries (t.told .messageTypes (written block txs t .messageTypes))
        ((write block txs .messageTypes t).told .eventTypes (written block txs t .eventTypes))
        ((write block txs .eventTypes (write block txs .messageTypes t)).told .attributeKeys
          (written block txs t .attributeKeys)))
      (writeTexts block txs t) := by
  intro kind text
  apply id_eq_of_getElem?_ids
  cases kind with
  | messageType =>
    have hids := h₁.getElem?_idsBy ht (by decide) (fun text => text) text_injective
      (fun _ => rfl) text
    have hlater : (writeTexts block txs t).textId .messageType text =
        (write block txs .messageTypes t).idOf .messageTypes (.text text) :=
      (idOf_write_of_ne (by decide) _).trans (idOf_write_of_ne (by decide) _)
    rw [List.map_id', ← hlater] at hids
    exact hids
  | eventType =>
    have hids := h₂.getElem?_idsBy h₁.sound (by decide) (fun text => text) text_injective
      (fun _ => rfl) text
    have hlater : (writeTexts block txs t).textId .eventType text =
        (write block txs .eventTypes (write block txs .messageTypes t)).idOf .eventTypes
          (.text text) :=
      idOf_write_of_ne (by decide) _
    rw [List.map_id', Progress.written_write (by decide), ← hlater] at hids
    exact hids
  | attributeKey =>
    have hids := h₃.getElem?_idsBy h₂.sound (by decide) (fun text => text) text_injective
      (fun _ => rfl) text
    rw [List.map_id', Progress.written_write (by decide),
      Progress.written_write (by decide)] at hids
    exact hids

/-- The stage of the shared texts fails with the first fault of the texts. -/
theorem ends_references (h : Progress block txs s t done)
    (hn : ∀ kind : ReferenceKind, kind.table ∉ done)
    (hsources : ∀ m ∈ done, ∀ kind : ReferenceKind, kind.table ∉ sources m) :
    Ends (fun fault cause => cause = fault) (storeReferences (ReferenceData.collect txs)) t
      (textsFault? (fun texts => (unsentFault? texts).or (repeatFault? texts))
        (ReferenceData.collect txs))
      fun refs u => u = writeTexts block txs t ∧
        Progress block txs s u (.attributeKeys :: .eventTypes :: .messageTypes :: done) ∧
        Resolved (ReferenceData.collect txs) refs u := by
  -- no rows are made of the ids of texts before the messages
  have hnone : ∀ kind kind' : ReferenceKind, kind.table ∉ sources kind'.table := by
    intro kind kind'
    cases kind' <;> exact List.not_mem_nil
  have hfree : ∀ kind kind' : ReferenceKind, ∀ {done : List TableName},
      (∀ m ∈ done, kind.table ∉ sources m) → ∀ m ∈ kind'.table :: done, kind.table ∉ sources m := by
    intro kind kind' done h m hm
    rcases List.mem_cons.1 hm with rfl | hm
    · exact hnone kind kind'
    · exact h m hm
  have hfirst := h.ends_texts .messageType (hn _) (hfree _ _ fun m hm => hsources m hm _)
  rw [textsFault?]
  unfold storeReferences storeReferencesBy
  apply hfirst.bind
  rintro - messageTypes t₁ ⟨rfl, rfl, h₁⟩
  have hsecond := h₁.ends_texts .eventType (by simp [hn .eventType, ReferenceKind.table])
    (hfree _ _ (hfree _ .messageType fun m hm => hsources m hm _))
  rw [Progress.written_write (by decide)] at hsecond
  apply hsecond.bind
  rintro - eventTypes t₂ ⟨rfl, rfl, h₂⟩
  have hthird := h₂.ends_texts .attributeKey (by simp [hn .attributeKey, ReferenceKind.table])
    (hfree _ _ (hfree _ .eventType (hfree _ .messageType fun m hm => hsources m hm _)))
  rw [Progress.written_write (by decide), Progress.written_write (by decide)] at hthird
  apply hthird.last
  rintro - attributeKeys t₃ ⟨rfl, rfl, h₃⟩
  exact Ends.pure ⟨rfl, h₃, resolved_writeTexts h.sound h₁ h₂ h₃⟩

theorem Resolved.write {data : ReferenceData} {refs : ResolvedReferences} (h : Resolved data refs t)
    (block : Block) (txs : List Tx) {n : TableName} (hn : ∀ kind : ReferenceKind, kind.table ≠ n) :
    Resolved data refs (Persist.write block txs n t) := by
  intro kind text
  rw [h kind text, Store.textId, Store.textId, idOf_write_of_ne (hn kind)]

end Persist

end BlockArchive
