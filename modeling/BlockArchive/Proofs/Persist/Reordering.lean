import BlockArchive.Proofs.Persist.Placement
import BlockArchive.Proofs.Writing

/-!
# The order of lists

The order in which a block lists its transactions, and these their messages, the messages their
events and the events their attributes, has no part in what is stored: rows come in the order of
their keys and places, and so take the same ids. Nor have fees, and transactions that a later one
replaces.

## Main definitions

- `Reordered`: the same up to the order and up to a relation between the members
- `Event.Alike`, `Message.Alike`, `Tx.Alike`: the same up to the order of the lists they hold

## Main statements

- `Persist.agree_persist`: storing alike transactions goes alike
- `Step.persist_reordered`: it succeeds in the same stores and leads to the same store
-/

namespace BlockArchive

section Reordered

variable {α β : Type} {R : α → α → Prop} {l m : List α}

/-- The members of the lists correspond, one to one and in any order. -/
def Reordered (R : α → α → Prop) (l m : List α) : Prop :=
  ∃ k, l.Perm k ∧ List.Forall₂ R k m

theorem Reordered.of_forall₂ (h : List.Forall₂ R l m) : Reordered R l m :=
  ⟨l, List.Perm.refl l, h⟩

theorem Reordered.flatMap {f g : α → List β} (h : Reordered R l m)
    (hfg : ∀ a b, R a b → (f a).Perm (g b)) : (l.flatMap f).Perm (m.flatMap g) := by
  obtain ⟨k, hperm, hpairs⟩ := h
  refine (hperm.flatMap_right f).trans ?_
  clear hperm
  induction hpairs with
  | nil => exact List.Perm.refl _
  | cons hab _ ih =>
    rw [List.flatMap_cons, List.flatMap_cons]
    exact (hfg _ _ hab).append ih

theorem Reordered.map {f g : α → β} (h : Reordered R l m) (hfg : ∀ a b, R a b → f a = g b) :
    (l.map f).Perm (m.map g) := by
  rw [List.map_eq_flatMap, List.map_eq_flatMap]
  apply h.flatMap
  intro a b hab
  rw [hfg a b hab]

end Reordered

/-! ## Alike transactions -/

/-- The attributes are listed in any order. -/
structure Event.Alike (a b : Event) : Prop where
  eventType : a.eventType = b.eventType
  index : a.index = b.index
  attributes : a.attributes.Perm b.attributes

/-- The events are listed in any order, and so are their attributes. -/
structure Message.Alike (a b : Message) : Prop where
  messageType : a.messageType = b.messageType
  index : a.index = b.index
  events : Reordered Event.Alike a.events b.events

/-- The messages are listed in any order, and so is what lies below them. Fees do not count. -/
structure Tx.Alike (a b : Tx) : Prop where
  hash : a.hash = b.hash
  code : a.code = b.code
  signer : a.signer = b.signer
  messages : Reordered Message.Alike a.messages b.messages
  messageTypes : a.messageTypes = b.messageTypes
  eventTypes : a.eventTypes = b.eventTypes
  attributeKeys : a.attributeKeys = b.attributeKeys

/-- If the last transactions of every hash are alike, so are the survivors, one after the other. -/
theorem Tx.forall₂_uniqueByHash {txs txs' : List Tx}
    (h : ∀ hash, Option.Rel Tx.Alike (last? txs hash) (last? txs' hash)) :
    List.Forall₂ Tx.Alike (uniqueByHash txs) (uniqueByHash txs') := by
  apply OrderedMap.forall₂_values
  simpa only [getElem?_byHash] using h

namespace Persist

variable {txs txs' : List Tx} (h : List.Forall₂ Tx.Alike txs txs')

include h

theorem collect_eq : ReferenceData.collect txs = ReferenceData.collect txs' := by
  unfold ReferenceData.collect
  generalize (∅ : ReferenceData) = data
  induction h generalizing data with
  | nil => rfl
  | @cons tx tx' _ _ hab _ ih =>
    have htx : ReferenceData.ofTx tx = ReferenceData.ofTx tx' := by
      rw [ReferenceData.ofTx, hab.messageTypes, hab.eventTypes, hab.attributeKeys, hab.signer,
        ← ReferenceData.ofTx]
    rw [List.foldl_cons, List.foldl_cons, htx, ih]

theorem txRows_eq_of_alike (block : Id) (addresses : Std.ExtTreeMap String Id) :
    txRows block addresses txs = txRows block addresses txs' := by
  unfold txRows
  induction h with
  | nil => rfl
  | @cons tx tx' _ _ hab _ ih =>
    have htx : txRow block addresses tx = txRow block addresses tx' := by
      rw [txRow, hab.hash, hab.code, hab.signer, ← txRow]
    rw [List.mapM_cons, List.mapM_cons, htx, ih]

omit h in
theorem message_id_eq (ids : ParentIds) {tx tx' : Tx} {message message' : Message}
    (htx : tx.Alike tx') (hmessage : message.Alike message') :
    ids.message tx message = ids.message tx' message' := by
  simp only [ParentIds.message, ParentIds.tx, htx.hash, hmessage.index]

omit h in
theorem event_id_eq (ids : ParentIds) {tx tx' : Tx} {message message' : Message}
    {event event' : Event} (htx : tx.Alike tx') (hmessage : message.Alike message')
    (hevent : event.Alike event') :
    ids.event tx message event = ids.event tx' message' event' := by
  simp only [ParentIds.event, message_id_eq ids htx hmessage, hevent.index]

omit h in
theorem perm_candidatesBelow {ρ : Type} {parent parent' : Except Failure Id}
    {children children' : Id → List (Candidate ρ)} (hparent : parent = parent')
    (h : ∀ id, (children id).Perm (children' id)) :
    (candidatesBelow parent children).Perm (candidatesBelow parent' children') := by
  subst hparent
  cases parent with
  | ok id => exact h id
  | error failure => exact .refl _

omit h in
theorem tx_id_eq (ids : ParentIds) {tx tx' : Tx} (htx : tx.Alike tx') : ids.tx tx = ids.tx tx' := by
  rw [ParentIds.tx, htx.hash, ← ParentIds.tx]

theorem perm_messageCandidates (ids : ParentIds) (refs : ResolvedReferences) :
    (messageCandidates ids refs txs).Perm (messageCandidates ids refs txs') := by
  apply (Reordered.of_forall₂ h).flatMap
  intro tx tx' htx
  apply perm_candidatesBelow (tx_id_eq ids htx)
  intro txId
  apply htx.messages.map
  intro message message' hmessage
  rw [hmessage.messageType, hmessage.index]

theorem perm_eventCandidates (ids : ParentIds) (refs : ResolvedReferences) :
    (eventCandidates ids refs txs).Perm (eventCandidates ids refs txs') := by
  apply (Reordered.of_forall₂ h).flatMap
  intro tx tx' htx
  apply perm_candidatesBelow (tx_id_eq ids htx)
  intro _
  apply htx.messages.flatMap
  intro message message' hmessage
  apply perm_candidatesBelow (message_id_eq ids htx hmessage)
  intro messageId
  apply hmessage.events.map
  intro event event' hevent
  rw [hevent.eventType, hevent.index]

theorem perm_attributeCandidates (ids : ParentIds) (refs : ResolvedReferences) :
    (attributeCandidates ids refs txs).Perm (attributeCandidates ids refs txs') := by
  apply (Reordered.of_forall₂ h).flatMap
  intro tx tx' htx
  apply perm_candidatesBelow (tx_id_eq ids htx)
  intro _
  apply htx.messages.flatMap
  intro message message' hmessage
  apply perm_candidatesBelow (message_id_eq ids htx hmessage)
  intro _
  apply hmessage.events.flatMap
  intro event event' hevent
  apply perm_candidatesBelow (event_id_eq ids htx hmessage hevent)
  intro eventId
  exact hevent.attributes.map _

/-! ## The stages -/

theorem agree_storeTxes (block : Id) (addresses : Std.ExtTreeMap String Id) :
    Agree (storeTxes block addresses txs) (storeTxes block addresses txs') := by
  rw [storeTxes, storeTxesBy, storeTxesBy, txRows_eq_of_alike h]
  apply (agree_ofExcept fun _ => Iff.rfl).bind
  intro rows
  exact agree_query _

theorem agree_storeMessages (txes : Std.ExtTreeMap String Id) (refs : ResolvedReferences) :
    Agree (storeMessages txes refs txs) (storeMessages txes refs txs') := by
  unfold storeMessages storeMessagesBy
  refine (agree_ofExcept fun rows =>
    placeAll_eq_ok_iff_of_perm (perm_messageCandidates h _ refs) rows).bind fun rows => ?_
  refine (agree_query _).bind fun messages => (agree_log _ _).bind fun _ => ?_
  refine (agree_ofExcept fun rows =>
    placeAll_eq_ok_iff_of_perm (perm_eventCandidates h _ refs) rows).bind fun rows => ?_
  refine (agree_query _).bind fun events => (agree_log _ _).bind fun _ => ?_
  refine (agree_ofExcept fun rows =>
    placeAll_eq_ok_iff_of_perm (perm_attributeCandidates h _ refs) rows).bind fun rows => ?_
  exact (agree_query _).bind fun attributes => agree_log _ _

omit h in
theorem agree_noteUnknownTime (block : Block) :
    Agree (noteUnknownTime block) (noteUnknownTime block) := by
  unfold noteUnknownTime
  split
  · exact agree_log _ _
  · exact agree_pure ()

omit h in
/-- Warnings are not seen, whichever there are. -/
theorem agree_warnOfRepeatedHashes (all all' unique unique' : List Tx) :
    Agree (warnOfRepeatedHashes all unique) (warnOfRepeatedHashes all' unique') := by
  unfold warnOfRepeatedHashes
  split <;> split
  · exact agree_log _ _
  · exact agree_log_pure _
  · exact (agree_log_pure _).symm
  · exact agree_pure ()

omit h in
theorem agree_warnOfDroppedFees (block : Block) (txs txs' : List Tx) :
    Agree (warnOfDroppedFees block txs) (warnOfDroppedFees block txs') := by
  unfold warnOfDroppedFees
  simp only
  split <;> split
  · exact agree_pure ()
  · exact (agree_log_pure _).symm
  · exact agree_log_pure _
  · exact agree_log _ _

omit h in
theorem agree_stages {all all' : List Tx} (block : Block)
    (h : List.Forall₂ Tx.Alike (Tx.uniqueByHash all) (Tx.uniqueByHash all')) :
    Agree (stages block all) (stages block all') := by
  unfold stages stagesBy storeBelowBy
  simp only [collect_eq h]
  refine ((agree_query _).stage _ block).bind fun _ => ?_
  refine ((agree_query _).stage _ block).bind fun blockId => ?_
  refine (agree_noteUnknownTime block).bind fun _ => ?_
  refine (agree_warnOfRepeatedHashes _ _ _ _).bind fun _ => ?_
  refine (agree_warnOfDroppedFees block _ _).bind fun _ => ?_
  refine ((agree_query _).stage _ block).bind fun addresses => (agree_log _ _).bind fun _ => ?_
  refine ((agree_storeTxes h blockId addresses).stage _ block).bind fun txes => ?_
  refine (agree_log _ _).bind fun _ => ((agree_query _).stage _ block).bind fun refs => ?_
  exact (agree_storeMessages h _ refs).stage _ block

omit h in
/-- Storing alike transactions goes alike. -/
theorem agree_persist {all all' : List Tx} (block : Block)
    (h : List.Forall₂ Tx.Alike (Tx.uniqueByHash all) (Tx.uniqueByHash all')) :
    Agree (persist block all) (persist block all') :=
  (agree_stages block h).transaction.bind fun _ => agree_log _ _

end Persist

/-- If the last transactions of every hash are alike in two lists, storing the one or the other with
a block succeeds in the same stores and leads to the same store, the ids included. -/
theorem Step.persist_reordered (s : Store) (block : Block) {txs txs' : List Tx}
    (h : ∀ hash, Option.Rel Tx.Alike (Tx.last? txs hash) (Tx.last? txs' hash)) :
    ((persist block txs).Succeeds s ↔ (persist block txs').Succeeds s) ∧
      (persist block txs).next s = (persist block txs').next s :=
  (does_persist block txs).agree (does_persist block txs')
    (Persist.agree_persist block (Tx.forall₂_uniqueByHash h))

/-- Two messages change places, and so do two attributes; a fee is left out, and a transaction that
is replaced comes in. -/
theorem Step.persist_reordered_of_swapped_messages :
    let s := (registerChain ⟨"a-1", "A"⟩).next ∅
    let block : Block := ⟨1, 7, Instant.zero⟩
    let vote : Message := ⟨"vote", 1, []⟩
    let transfer (attributes : List Attribute) : Message :=
      ⟨"send", 0, [⟨"transfer", 0, attributes⟩]⟩
    let amount : Attribute := ⟨"amount", 0, "5"⟩
    let receiver : Attribute := ⟨"receiver", 1, "bob"⟩
    let tx := Tx.new "h1" 0 (some "alice") [transfer [amount, receiver], vote]
    let swapped : Tx := { tx with
      messages := [vote, transfer [receiver, amount]]
      fees := [⟨"9", "uatom", none⟩] }
    let replaced := Tx.new "h1" 4 none []
    (persist block [tx]).Succeeds s ∧ (persist block [replaced, swapped]).Succeeds s ∧
      (persist block [tx]).next s = (persist block [replaced, swapped]).next s := by
  intro s block vote transfer amount receiver tx swapped replaced
  have hevent : Event.Alike ⟨"transfer", 0, [amount, receiver]⟩
      ⟨"transfer", 0, [receiver, amount]⟩ := ⟨rfl, rfl, List.Perm.swap receiver amount []⟩
  have hmessage : (transfer [amount, receiver]).Alike (transfer [receiver, amount]) :=
    ⟨rfl, rfl, .of_forall₂ (.cons hevent .nil)⟩
  have hvote : vote.Alike vote := ⟨rfl, rfl, .of_forall₂ .nil⟩
  have htx : tx.Alike swapped :=
    ⟨rfl, rfl, rfl, ⟨_, List.Perm.swap vote _ [], .cons hvote (.cons hmessage .nil)⟩, rfl, rfl, rfl⟩
  have halike : ∀ hash,
      Option.Rel Tx.Alike (Tx.last? [tx] hash) (Tx.last? [replaced, swapped] hash) := by
    intro hash
    by_cases hhash : "h1" = hash
    · subst hhash
      exact .some htx
    · have hnone : ∀ txs : List Tx, (∀ tx ∈ txs, tx.hash = "h1") → Tx.last? txs hash = none := by
        intro txs htxs
        rw [Tx.last?, List.find?_eq_none]
        intro tx hmem
        rw [htxs tx (List.mem_reverse.1 hmem)]
        simpa using hhash
      rw [hnone _ (by decide +kernel), hnone _ (by decide +kernel)]
      exact .none
  have hstores := persist_reordered s block halike
  have hok : (persist block [tx]).Succeeds s := ⟨none, by decide +kernel⟩
  exact ⟨hok, hstores.1.1 hok, hstores.2⟩

end BlockArchive
