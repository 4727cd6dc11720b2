import BlockArchive.Proofs.Effects

/-!
# Ids that are looked up

A row is made with the ids of the rows above it, which are looked up among those that the store has
told when these were stored. A statement tells the id of every row that it sends, be the row new or
stored before, so every id that is looked up later is among them, and no step ever fails for want of
one.

## Main definitions

- `Persist.FindsSigners`, `ParentIds.FindsTxes`, `ParentIds.FindsMessages`, `ParentIds.FindsEvents`:
  the ids of one level can be looked up

## Main statements

- `Store.mem_idsBy_of_upsertAll`: a batch that is stored tells an id for each of its rows
- `Persist.findsSigners_of_stored`, `Persist.findsTxes_of_stored`,
  `Persist.findsMessages_of_stored`, `Persist.findsEvents_of_stored`,
  `DenomWithUnits.exists_unitRows_of_stored`: each stage that succeeds finds the ids for the next
- `Store.Reachable.no_id_missing`: no step fails for want of an id
-/

namespace BlockArchive

open Persist

/-! ## What a batch tells -/

section Told

variable {κ : Type} [Ord κ] [Std.TransOrd κ] [Std.LawfulEqOrd κ] [DecidableEq κ]

omit [Ord κ] [Std.TransOrd κ] [Std.LawfulEqOrd κ] [DecidableEq κ] in
/-- A statement that is carried out tells rows with the keys that it was sent. -/
theorem Store.map_key_of_upsert {s t : Store} {n : TableName} {rows : List n.Row}
    {told : List (Entry n.Row)} (h : Store.upsert n rows s = .ok told t) :
    told.map (fun entry => n.key entry.row) = rows.map n.key := by
  unfold Store.upsert at h
  split at h
  · cases h
  · split at h
    · cases h
    · simp only at h
      split at h
      · cases h
      · cases h
        exact Table.map_key_offerBatch n.keepsKey_refresh _ rows

omit [Ord κ] [Std.TransOrd κ] [Std.LawfulEqOrd κ] [DecidableEq κ] in
/-- And so does a batch, statement by statement. -/
theorem Store.map_key_of_upsertAll {s t : Store} {n : TableName} {rows : List n.Row}
    {told : List (Entry n.Row)} (h : Store.upsertAll n rows s = .ok told t) :
    told.map (fun entry => n.key entry.row) = rows.map n.key := by
  obtain ⟨parts, u, hparts, hend⟩ := exists_of_bind h
  cases hend
  clear h
  rw [← n.flatten_statements rows]
  generalize n.statements rows = sent at hparts
  induction sent generalizing s parts with
  | nil =>
    cases hparts
    rfl
  | cons part rest ih =>
    rw [List.mapM_cons] at hparts
    obtain ⟨first, middle, hfirst, hrest⟩ := exists_of_bind hparts
    obtain ⟨others, last, hothers, hend⟩ := exists_of_bind hrest
    cases hend
    rw [List.flatten_cons, List.flatten_cons, List.map_append, List.map_append, ih _ hothers,
      Store.map_key_of_upsert hfirst]

/-- A batch that is stored tells an id for each of its rows. -/
theorem Store.mem_idsBy_of_upsertAll {s t : Store} {n : TableName} {rows : List n.Row}
    {told : List (Entry n.Row)} (h : Store.upsertAll n rows s = .ok told t) {part : n.Row → κ}
    {wrap : κ → Key} (hinj : Function.Injective wrap) (hkey : ∀ row, n.key row = wrap (part row))
    {row : n.Row} (hrow : row ∈ rows) : part row ∈ Entry.idsBy part told := by
  have hmem : n.key row ∈ told.map fun entry => n.key entry.row :=
    Store.map_key_of_upsertAll h ▸ List.mem_map_of_mem hrow
  obtain ⟨entry, hentry, hsame⟩ := List.mem_map.1 hmem
  rw [hkey, hkey] at hsame
  rw [Entry.idsBy, Std.ExtTreeMap.mem_ofList, List.map_map, List.contains_iff_mem, ← hinj hsame]
  exact List.mem_map_of_mem (f := fun entry => part entry.row) hentry

omit [Std.LawfulEqOrd κ] [DecidableEq κ] in
theorem exists_generatedId {ids : Std.ExtTreeMap κ Id} {key : κ} (h : key ∈ ids)
    (entity text : String) : ∃ id, generatedId ids key entity text = .ok id := by
  rw [Std.ExtTreeMap.mem_iff_isSome_getElem?, Option.isSome_iff_exists] at h
  obtain ⟨id, hid⟩ := h
  exact ⟨id, generatedId_ok hid entity text⟩

end Told

/-! ## Rows that have been made -/

/-- Candidates that have been placed all had rows, which are in their places. -/
theorem exists_mem_of_placeAll {ρ : Type} {entity : String} {slot : ρ → Slot}
    {candidates : List (Candidate ρ)} {placed : List ρ}
    (h : placeAll entity slot candidates = .ok placed) {candidate : Candidate ρ}
    (hcandidate : candidate ∈ candidates) : ∃ row ∈ placed, candidate = .ok row := by
  obtain ⟨rows, rfl, hnodup, rfl⟩ := placeAll_eq_ok_iff.1 h
  obtain ⟨row, hrow, rfl⟩ := List.mem_map.1 hcandidate
  exact ⟨row, (mem_inOrder hnodup).2 hrow, rfl⟩

/-- Where all that lies below a parent has been placed, the parent has an id. -/
theorem exists_of_candidatesBelow {ρ : Type} {parent : Except Failure Id}
    {children : Id → List (Candidate ρ)} {placed : List ρ}
    (h : ∀ candidate ∈ candidatesBelow parent children, ∃ row ∈ placed, candidate = .ok row) :
    ∃ id, parent = .ok id ∧
      ∀ candidate ∈ children id, ∃ row ∈ placed, candidate = .ok row := by
  cases parent with
  | ok id => exact ⟨id, rfl, h⟩
  | error failure =>
    obtain ⟨row, _, hrow⟩ := h _ List.mem_cons_self
    cases hrow

/-- A row that has been made had an id for its text. -/
theorem exists_of_candidate {ρ : Type} {text : Except Failure Id} {make : Id → ρ} {row : ρ}
    (h : (do return make (← text)) = Except.ok row) :
    ∃ textId, text = .ok textId ∧ row = make textId := by
  cases text with
  | error failure => cases h
  | ok textId =>
    cases h
    exact ⟨textId, rfl, rfl⟩

/-- What is made of a list, member by member, tells what the members tell. -/
theorem map_eq_of_mapM {ε α β γ : Type} {f : α → Except ε β} {tell : α → γ} {tell' : β → γ}
    (hf : ∀ a b, f a = .ok b → tell' b = tell a) {l : List α} {made : List β}
    (h : l.mapM f = .ok made) : made.map tell' = l.map tell := by
  induction l generalizing made with
  | nil =>
    cases h
    rfl
  | cons a rest ih =>
    rw [List.mapM_cons] at h
    cases hfirst : f a with
    | error failure =>
      rw [hfirst] at h
      cases h
    | ok b =>
      cases hrest : rest.mapM f with
      | error failure =>
        rw [hfirst, hrest] at h
        cases h
      | ok others =>
        rw [hfirst, hrest] at h
        cases h
        rw [List.map_cons, List.map_cons, hf a b hfirst, ih hrest]

theorem map_hash_of_txRows {block : Id} {addresses : Std.ExtTreeMap String Id} {txs : List Tx}
    {rows : List TxRow} (h : txRows block addresses txs = .ok rows) :
    rows.map (·.hash) = txs.map (·.hash) := by
  refine map_eq_of_mapM (fun tx row hrow => ?_) h
  rw [txRow] at hrow
  cases hsigner : tx.signer.mapM fun address => generatedId addresses address "address" address with
  | error failure =>
    rw [hsigner] at hrow
    cases hrow
  | ok signer =>
    rw [hsigner] at hrow
    cases hrow
    rfl

/-! ## The stages of a block -/

/-- The id of every signer can be looked up. -/
def Persist.FindsSigners (addresses : Std.ExtTreeMap String Id) (txs : List Tx) : Prop :=
  ∀ tx ∈ txs, ∀ address ∈ tx.signer, ∃ id, generatedId addresses address "address" address = .ok id

namespace ParentIds

/-- The id of every transaction can be looked up. -/
def FindsTxes (ids : ParentIds) (txs : List Tx) : Prop :=
  ∀ tx ∈ txs, ∃ id, ids.tx tx = .ok id

/-- The id of every message can be looked up, by the id of its transaction and its index. -/
def FindsMessages (ids : ParentIds) (txs : List Tx) : Prop :=
  ∀ tx ∈ txs, ∀ message ∈ tx.messages, ∃ id, ids.message tx message = .ok id

/-- The id of every event can be looked up, by the id of its message and its index. -/
def FindsEvents (ids : ParentIds) (txs : List Tx) : Prop :=
  ∀ tx ∈ txs, ∀ message ∈ tx.messages, ∀ event ∈ message.events,
    ∃ id, ids.event tx message event = .ok id

end ParentIds

namespace Persist

variable {txs : List Tx} {ids : ParentIds} {refs : ResolvedReferences} {s t : Store}

theorem findsSigners_of_stored {addresses : Std.ExtTreeMap String Id}
    (h : storeAddresses (ReferenceData.collect txs) s = .ok addresses t) :
    FindsSigners addresses txs := by
  intro tx htx address haddress
  obtain ⟨told, u, hupsert, hend⟩ := exists_of_bind h
  cases hend
  apply exists_generatedId
  apply Store.mem_idsBy_of_upsertAll (n := .addresses) hupsert text_injective fun _ => rfl
  exact Std.ExtTreeSet.mem_toList.2 (ReferenceData.mem_signers_collect.2 ⟨tx, htx, haddress⟩)

theorem findsTxes_of_stored {block : Id} {addresses : Std.ExtTreeMap String Id}
    {session after : Session} {txes : List (Entry TxRow)}
    (h : storeTxes block addresses txs session = .ok txes after) :
    ({ txes := Entry.idsBy TxRow.hash txes } : ParentIds).FindsTxes txs := by
  intro tx htx
  obtain ⟨rows, middle, hmade, hquery⟩ := exists_of_bind h
  have hrows := map_hash_of_txRows (WriteM.ok_of_ofExcept hmade).1
  have hupsert := (WriteM.ok_of_query hquery).1
  have hhash : tx.hash ∈ rows.map (·.hash) := hrows ▸ List.mem_map_of_mem htx
  obtain ⟨row, hrow, hsame⟩ := List.mem_map.1 hhash
  apply exists_generatedId
  rw [← hsame]
  exact Store.mem_idsBy_of_upsertAll (n := .txes) hupsert text_injective (fun _ => rfl) hrow

theorem findsMessages_of_stored {rows : List MessageRow} {told : List (Entry MessageRow)}
    (hrows : messageRows ids refs txs = .ok rows)
    (h : Store.upsertAll .messages rows s = .ok told t) :
    { ids with messages := Entry.idsBy MessageRow.slot told }.FindsMessages txs := by
  intro tx htx message hmessage
  obtain ⟨txId, htxId, hbelow⟩ := exists_of_candidatesBelow fun candidate hcandidate =>
    exists_mem_of_placeAll hrows (List.mem_flatMap.2 ⟨tx, htx, hcandidate⟩)
  obtain ⟨row, hrow, hmade⟩ := hbelow _ (List.mem_map_of_mem hmessage)
  obtain ⟨_, _, rfl⟩ := exists_of_candidate hmade
  have hmem : (⟨txId, message.index⟩ : Slot) ∈ Entry.idsBy MessageRow.slot told :=
    Store.mem_idsBy_of_upsertAll (n := .messages) h slot_injective (fun _ => rfl) hrow
  obtain ⟨id, hid⟩ := exists_generatedId hmem "message" (Slot.text ⟨txId, message.index⟩)
  refine ⟨id, ?_⟩
  show (do let txId ← ids.tx tx; _) = _
  rw [htxId]
  exact hid

theorem findsEvents_of_stored {rows : List EventRow} {told : List (Entry EventRow)}
    (hrows : eventRows ids refs txs = .ok rows)
    (h : Store.upsertAll .events rows s = .ok told t) :
    { ids with events := Entry.idsBy EventRow.slot told }.FindsEvents txs := by
  intro tx htx message hmessage event hevent
  obtain ⟨_, _, hbelowTx⟩ := exists_of_candidatesBelow fun candidate hcandidate =>
    exists_mem_of_placeAll hrows (List.mem_flatMap.2 ⟨tx, htx, hcandidate⟩)
  obtain ⟨messageId, hmessageId, hbelow⟩ := exists_of_candidatesBelow fun candidate hcandidate =>
    hbelowTx candidate (List.mem_flatMap.2 ⟨message, hmessage, hcandidate⟩)
  obtain ⟨row, hrow, hmade⟩ := hbelow _ (List.mem_map_of_mem hevent)
  obtain ⟨_, _, rfl⟩ := exists_of_candidate hmade
  have hmem : (⟨messageId, event.index⟩ : Slot) ∈ Entry.idsBy EventRow.slot told :=
    Store.mem_idsBy_of_upsertAll (n := .events) h slot_injective (fun _ => rfl) hrow
  obtain ⟨id, hid⟩ :=
    exists_generatedId hmem "message event" (Slot.text ⟨messageId, event.index⟩)
  refine ⟨id, ?_⟩
  show (do let messageId ← ids.message tx message; _) = _
  rw [hmessageId]
  exact hid

/-- A fault of a block is never told as an id that is missing. -/
theorem Fault.Tells.ne_missing {fault : Fault} {failure : Failure} (h : fault.Tells s failure)
    (entity key : String) : failure ≠ .missingGeneratedKey entity key := by
  cases fault with
  | refused cause =>
    rw [show failure = .query cause from h]
    exact Failure.noConfusion
  | unregistered kind text =>
    rw [show failure = .unregisteredReference kind text from h]
    exact Failure.noConfusion
  | repeated kind parent index =>
    obtain ⟨id, _, rfl⟩ := h
    exact Failure.noConfusion

end Persist

/-! ## Denominations -/

theorem DenomWithUnits.exists_unitRows_of_stored {entries : List DenomWithUnits} {s t : Store}
    {stored : List (Entry Denom)}
    (h : Store.upsertAll .denoms ((uniqueByBase entries).map (·.denom)) s = .ok stored t) :
    ∀ entry ∈ uniqueByBase entries,
      ∃ rows, entry.unitRows (Entry.idsBy Denom.base stored) = .ok rows := by
  intro entry hentry
  have hmem : entry.denom.base ∈ Entry.idsBy Denom.base stored :=
    Store.mem_idsBy_of_upsertAll (n := .denoms) h text_injective (fun _ => rfl)
      (List.mem_map_of_mem hentry)
  rw [Std.ExtTreeMap.mem_iff_isSome_getElem?, Option.isSome_iff_exists] at hmem
  obtain ⟨id, hid⟩ := hmem
  rw [unitRows, hid]
  exact ⟨_, rfl⟩

/-- Denominations are stored, or the store refuses one of the statements. -/
theorem Step.upsertDenoms_cases {s : Store} (hs : s.Sound) (entries : List DenomWithUnits) :
    (∃ cause, ((Step.upsertDenoms entries).outcome s).answer = .error (.repo (.query cause))) ∨
      (Step.upsertDenoms entries).Succeeds s := by
  have hdoes := does_upsertDenoms entries
  have hsession : ({ store := s } : Session).store = s := rfl
  have hends := ends_upsertDenoms hs entries hsession
  cases hfault : denomFault? entries with
  | some cause =>
    rw [hfault] at hends
    obtain ⟨failure, after, hpart, rfl⟩ := hends
    exact Or.inl ⟨cause, (hdoes.of_error hpart).1⟩
  | none =>
    rw [hfault] at hends
    obtain ⟨_, after, hpart, _⟩ := hends
    exact Or.inr (hdoes.of_ok hpart).1

/-! ## No id is missing -/

/-- Whatever a block or denominations are made of, storing them never fails for want of an id. As
soon as the batch of a stage has been carried out, in whatever store, the id of every signer, of
every surviving transaction, of each of its messages and of each of their events can be looked up
among those that its statements have told, and so can the id of every denomination that has
units. -/
theorem Store.Reachable.no_id_missing {s : Store} (h : s.Reachable) :
    (∀ block txs entity key, ((Step.persist block txs).outcome s).answer ≠
      .error (.repo (.missingGeneratedKey entity key))) ∧
    (∀ entries entity key, ((Step.upsertDenoms entries).outcome s).answer ≠
      .error (.repo (.missingGeneratedKey entity key))) ∧
    (∀ txs, let unique := Tx.uniqueByHash txs
      (∀ t addresses u, storeAddresses (ReferenceData.collect unique) t = .ok addresses u →
        FindsSigners addresses unique) ∧
      (∀ block addresses session txes after,
        storeTxes block addresses unique session = .ok txes after →
          ({ txes := Entry.idsBy TxRow.hash txes } : ParentIds).FindsTxes unique) ∧
      (∀ ids refs rows t told u, messageRows ids refs unique = .ok rows →
        Store.upsertAll .messages rows t = .ok told u →
          { ids with messages := Entry.idsBy MessageRow.slot told }.FindsMessages unique) ∧
      (∀ ids refs rows t told u, eventRows ids refs unique = .ok rows →
        Store.upsertAll .events rows t = .ok told u →
          { ids with events := Entry.idsBy EventRow.slot told }.FindsEvents unique)) ∧
    ∀ entries t stored u,
      Store.upsertAll .denoms ((DenomWithUnits.uniqueByBase entries).map (·.denom)) t =
          .ok stored u →
        ∀ entry ∈ DenomWithUnits.uniqueByBase entries,
          ∃ rows, entry.unitRows (Entry.idsBy Denom.base stored) = .ok rows := by
  refine ⟨fun block txs entity key hanswer => ?_, fun entries entity key hanswer => ?_, ?_, ?_⟩
  · rcases Step.persist_cases h.sound block txs with
      ⟨_, ⟨_, hok⟩, _⟩ | ⟨fault, failure, _, htells, hfails, _⟩
    · rw [hok] at hanswer
      cases hanswer
    · rw [hfails] at hanswer
      cases hanswer
      exact htells.ne_missing entity key rfl
  · obtain ⟨cause, hcause⟩ | hok := Step.upsertDenoms_cases h.sound entries
    · rw [hcause] at hanswer
      cases hanswer
    · obtain ⟨_, hok⟩ := hok
      rw [hok] at hanswer
      cases hanswer
  · intro txs
    exact ⟨fun _ _ _ => findsSigners_of_stored, fun _ _ _ _ _ => findsTxes_of_stored,
      fun _ _ _ _ _ _ => findsMessages_of_stored, fun _ _ _ _ _ _ => findsEvents_of_stored⟩
  · exact fun _ _ _ _ => DenomWithUnits.exists_unitRows_of_stored

/-- A hash is repeated, one of its transactions is stored already under another signer, and an event
comes without attributes. -/
theorem Store.Reachable.no_id_missing_of_repeated_hash :
    let block (height : Int64) : Block := ⟨1, height, Instant.zero⟩
    let send (index : Int64) : Message := ⟨"send", index, [⟨"transfer", 1, []⟩]⟩
    let s := (Step.persist (block 7) [Tx.new "h1" 0 (some "alice") [send 0]]).next
      ((Step.registerChain ⟨"a-1", "A"⟩).next ∅)
    let txs := [Tx.new "h2" 0 none [], Tx.new "h1" 5 none [],
      Tx.new "h1" 0 (some "bob") [send 1, send 0]]
    (∀ entity key, ((Step.persist (block 8) txs).outcome s).answer ≠
      .error (.repo (.missingGeneratedKey entity key))) ∧
    ∃ addresses t,
      storeAddresses (ReferenceData.collect (Tx.uniqueByHash txs)) s = .ok addresses t ∧
        FindsSigners addresses (Tx.uniqueByHash txs) := by
  intro block send s txs
  have hs : s.Reachable := .step (.step .empty _) _
  obtain ⟨hpersist, _, hstages, _⟩ := hs.no_id_missing
  have hok : (match storeAddresses (ReferenceData.collect (Tx.uniqueByHash txs)) s with
      | .ok _ _ => true
      | .error _ _ => false) = true := by
    decide +kernel
  refine ⟨fun entity key => hpersist (block 8) txs entity key, ?_⟩
  cases hrun : storeAddresses (ReferenceData.collect (Tx.uniqueByHash txs)) s with
  | ok addresses t => exact ⟨addresses, t, rfl, (hstages txs).1 s addresses t hrun⟩
  | error cause t =>
    rw [hrun] at hok
    cases hok

end BlockArchive
