import BlockArchive.Proofs.Ordered
import Mathlib.Data.List.Forall2
import Mathlib.Data.List.Perm.Basic

/-!
# The rows of a decoded tree

The rows of a level are made by going through the whole tree of a block, with the ids of all that is
stored above. Where these ids tell the places of the tree apart, the rows can be made exactly if
every text of the level is resolved and no two siblings share an index. Then each entity of the
level has one row, which is made of its own data and of the ids of its own parent and its own text.

Siblings are entities whose parents are at one place of the tree. Transactions with one hash, or
messages of one index in them, are at one place, so what lies below them counts as siblings also
where the tree lists it apart.

## Main definitions

- `Persist.Parent.path`: the place of a parent in the tree
- `Persist.withParents`: the entities of a level, each with its parent
- `Persist.Level.SiblingsApart`: no two siblings of a level share an index
- `Persist.Level.Flattens`: the rows of a level stand for its entities
- `ParentIds.Distinguishes`: the ids tell the places of the tree apart

## Main statements

- `Persist.Level.siblingsApart_iff`: siblings are those in one family, where parents are at
  different places
- `Persist.Level.flattens_placeAll`: a level whose parents have different ids is flattened
- `ParentIds.Distinguishes.flattens_tree`: all three levels of a tree are
-/

namespace BlockArchive

open Persist

theorem map_eq_map_iff_forall₂ {α β γ : Type} {f : α → γ} {g : β → γ} {l : List α} {l' : List β} :
    l.map f = l'.map g ↔ List.Forall₂ (fun a b => f a = g b) l l' := by
  rw [← List.forall₂_eq_eq_eq, List.forall₂_map_left_iff, List.forall₂_map_right_iff]

/-- A list can be matched with another if each of its members can be matched. -/
theorem exists_forall₂_iff {α β : Type} {R : α → β → Prop} {l : List α} :
    (∃ l', List.Forall₂ R l l') ↔ ∀ a ∈ l, ∃ b, R a b := by
  induction l with
  | nil => simp
  | cons a rest ih =>
    rw [List.forall_mem_cons, ← ih]
    constructor
    · rintro ⟨_, hmatch⟩
      obtain ⟨b, others, hb, hothers, _⟩ := List.forall₂_cons_left_iff.1 hmatch
      exact ⟨⟨b, hb⟩, others, hothers⟩
    · rintro ⟨⟨b, hb⟩, others, hothers⟩
      exact ⟨b :: others, .cons hb hothers⟩

/-! ## Places in the tree -/

namespace Persist

/-- The place of a parent in the tree: the hash of its transaction, and the indexes from there on
down. -/
def Parent.path : Parent → String × List Int64
  | tx t => (t.hash, [])
  | message t m => (t.hash, [m.index])
  | event t m e => (t.hash, [m.index, e.index])

/-- The entities of a level, each with its parent, as the tree lists them. -/
def withParents {α : Type} (families : List (Family α)) : List (Parent × α) :=
  families.flatMap fun family => family.members.map fun a => (family.parent, a)

theorem mem_withParents {α : Type} {families : List (Family α)} {parent : Parent} {a : α} :
    (parent, a) ∈ withParents families ↔
      ∃ family ∈ families, family.parent = parent ∧ a ∈ family.members := by
  simp only [withParents, List.mem_flatMap, List.mem_map, Prod.mk.injEq]
  constructor
  · rintro ⟨family, hfamily, _, ha, rfl, rfl⟩
    exact ⟨family, hfamily, rfl, ha⟩
  · rintro ⟨family, hfamily, rfl, ha⟩
    exact ⟨family, hfamily, a, ha, rfl, rfl⟩

end Persist

namespace ParentIds

variable (ids : ParentIds)

/-- The id of a parent. -/
def parent : Parent → Except Failure Id
  | .tx tx => ids.tx tx
  | .message tx message => ids.message tx message
  | .event tx message event => ids.event tx message event

/-- What is at one place has one id. -/
theorem parent_eq_of_path {p q : Parent} (h : p.path = q.path) : ids.parent p = ids.parent q := by
  cases p <;> cases q <;>
    simp only [Parent.path, Prod.mk.injEq, List.cons.injEq, reduceCtorEq, and_false, and_true] at h
  case tx.tx => simp only [parent, tx, h]
  case message.message => simp only [parent, message, tx, h]
  case event.event => simp only [parent, event, message, tx, h]

/-- Every parent of a level has an id, and those at different places have different ids. -/
structure Separates {α : Type} (families : List (Family α)) : Prop where
  known : ∀ family ∈ families, ∃ id, ids.parent family.parent = .ok id
  apart : ∀ family ∈ families, ∀ other ∈ families,
    ids.parent family.parent = ids.parent other.parent → family.parent.path = other.parent.path

end ParentIds

/-! ## Flattening a level -/

namespace Persist.Level

variable {α : Type} (L : Level α) (ids : ParentIds) (refs : ResolvedReferences)
  (families : List (Family α))

/-- No two siblings share an index. -/
def SiblingsApart : Prop :=
  (withParents families).Pairwise fun a b => a.1.path = b.1.path → L.index a.2 ≠ L.index b.2

/-- The row is made of the data of the entity and of the ids of its parent and of its text. -/
def IsRowOf (member : Parent × α) (row : L.table.Row) : Prop :=
  ∃ parent text, ids.parent member.1 = .ok parent ∧
    refs.id L.kind (L.text member.2) = .ok text ∧ row = L.row parent text member.2

/-- The rows of a level can be made exactly if every text is resolved and no two siblings share an
index. Then they come in the order of their places, and each stands for one entity of the tree. -/
structure Flattens (made : Except Failure (List L.table.Row)) : Prop where
  ok_iff : (∃ rows, made = .ok rows) ↔
    (∀ member ∈ withParents families, ∃ id, refs.id L.kind (L.text member.2) = .ok id) ∧
      L.SiblingsApart families
  ascending : ∀ rows, made = .ok rows → Ascending L.table rows
  bijection : ∀ rows, made = .ok rows →
    ∃ tree, tree.Perm (withParents families) ∧ List.Forall₂ (L.IsRowOf ids refs) tree rows

variable {families}

/-- Where the parents are at different places, siblings are those in one family. -/
theorem siblingsApart_iff (h : (families.map (·.parent.path)).Nodup) :
    L.SiblingsApart families ↔ ∀ family ∈ families, (family.members.map L.index).Nodup := by
  rw [List.Nodup, List.pairwise_map] at h
  rw [SiblingsApart, withParents, List.pairwise_flatMap]
  constructor
  · rintro ⟨hwithin, _⟩ family hfamily
    have hpairs := List.pairwise_map.1 (hwithin family hfamily)
    rw [List.Nodup, List.pairwise_map]
    exact hpairs.imp fun happart => happart rfl
  · intro hfamilies
    refine ⟨fun family hfamily => ?_, h.imp fun {family other} hne => ?_⟩
    · have hindexes := hfamilies family hfamily
      rw [List.Nodup, List.pairwise_map] at hindexes
      rw [List.pairwise_map]
      refine hindexes.imp fun {a b} hne => ?_
      exact fun _ => hne
    · intro a ha b hb hsame
      obtain ⟨_, _, rfl⟩ := List.mem_map.1 ha
      obtain ⟨_, _, rfl⟩ := List.mem_map.1 hb
      exact absurd hsame hne

variable {ids refs}

theorem exists_isRowOf_iff (h : ids.Separates families) :
    (∃ rows, List.Forall₂ (L.IsRowOf ids refs) (withParents families) rows) ↔
      ∀ member ∈ withParents families, ∃ id, refs.id L.kind (L.text member.2) = .ok id := by
  rw [exists_forall₂_iff]
  refine forall₂_congr fun member hmember => ?_
  obtain ⟨family, hfamily, hparent, _⟩ := mem_withParents.1 hmember
  obtain ⟨parent, hid⟩ := h.known family hfamily
  rw [hparent] at hid
  constructor
  · rintro ⟨_, _, text, _, htext, _⟩
    exact ⟨text, htext⟩
  · rintro ⟨text, htext⟩
    exact ⟨_, parent, text, hid, htext, rfl⟩

/-- Different ids of the parents keep the rows of different families apart, so two rows want one
place only if they stand for siblings of one index. -/
theorem nodup_slots_iff (h : ids.Separates families) {rows : List L.table.Row}
    (hrows : List.Forall₂ (L.IsRowOf ids refs) (withParents families) rows) :
    (rows.map L.slot).Nodup ↔ L.SiblingsApart families := by
  have hslots : (withParents families).map
      (fun member => (ids.parent member.1, L.index member.2)) =
        (rows.map L.slot).map fun slot => (Except.ok slot.parent, slot.index) := by
    rw [List.map_map, map_eq_map_iff_forall₂]
    refine hrows.imp fun member row hrow => ?_
    obtain ⟨parent, text, hparent, _, rfl⟩ := hrow
    simp only [hparent, Function.comp_apply, L.slot_row]
  have hinj : Function.Injective fun slot : Slot =>
      ((Except.ok slot.parent, slot.index) : Except Failure Id × Int64) := by
    rintro ⟨parent, index⟩ ⟨parent', index'⟩ hsame
    cases hsame
    rfl
  rw [← List.nodup_map_iff hinj, ← hslots, List.Nodup, List.pairwise_map, SiblingsApart]
  refine List.Pairwise.iff_of_mem fun {a b} ha hb => ?_
  obtain ⟨family, hfamily, hparent, _⟩ := mem_withParents.1 ha
  obtain ⟨other, hother, hparent', _⟩ := mem_withParents.1 hb
  have hsame : ids.parent a.1 = ids.parent b.1 ↔ a.1.path = b.1.path := by
    refine ⟨fun hid => ?_, ids.parent_eq_of_path⟩
    rw [← hparent, ← hparent'] at hid ⊢
    exact h.apart family hfamily other hother hid
  rw [Ne, Prod.mk.injEq, not_and, hsame]

/-- Below a parent that has an id there is a row for each of its entities. -/
theorem candidatesBelow_parent (parent : Parent) {id : Id} (h : ids.parent parent = .ok id)
    (members : List α) :
    (candidatesBelow (ids.parent parent) fun id =>
      members.map fun a => do return L.row id (← refs.id L.kind (L.text a)) a) =
        members.map fun a => do
          return L.row (← ids.parent parent) (← refs.id L.kind (L.text a)) a := by
  rw [h]
  rfl

/-- A level whose parents have different ids is flattened by placing a row for each of its
entities. -/
theorem flattens_placeAll (h : ids.Separates families)
    {candidates : List (Candidate L.table.Row)}
    (hcandidates : candidates = (withParents families).map fun member => do
      return L.row (← ids.parent member.1) (← refs.id L.kind (L.text member.2)) member.2) :
    L.Flattens ids refs families (placeAll L.kind.entity L.slot candidates) := by
  have hmade : ∀ {rows}, candidates = rows.map .ok ↔
      List.Forall₂ (L.IsRowOf ids refs) (withParents families) rows := by
    intro rows
    rw [hcandidates, map_eq_map_iff_forall₂]
    have hrow : ∀ member row, (do
        return L.row (← ids.parent member.1) (← refs.id L.kind (L.text member.2)) member.2) =
          Except.ok row ↔ L.IsRowOf ids refs member row := by
      intro member row
      constructor
      · intro hmade
        cases hparent : ids.parent member.1 with
        | error failure =>
          rw [hparent] at hmade
          cases hmade
        | ok parent =>
          rw [hparent] at hmade
          obtain ⟨text, htext, rfl⟩ := exists_of_candidate hmade
          exact ⟨parent, text, hparent, htext, rfl⟩
      · rintro ⟨parent, text, hparent, htext, rfl⟩
        rw [hparent, htext]
        rfl
    simp only [hrow]
  refine ⟨?_, fun rows hrows => .of_placeAll L.key_eq hrows, fun placed hplaced => ?_⟩
  · rw [← L.exists_isRowOf_iff h]
    constructor
    · rintro ⟨placed, hplaced⟩
      obtain ⟨rows, hrows, hnodup, _⟩ := placeAll_eq_ok_iff.1 hplaced
      have hmatch := hmade.1 hrows
      exact ⟨⟨rows, hmatch⟩, (L.nodup_slots_iff h hmatch).1 hnodup⟩
    · rintro ⟨⟨rows, hmatch⟩, happart⟩
      exact ⟨_, placeAll_eq_ok_iff.2
        ⟨rows, hmade.2 hmatch, (L.nodup_slots_iff h hmatch).2 happart, rfl⟩⟩
  · obtain ⟨rows, hrows, hnodup, rfl⟩ := placeAll_eq_ok_iff.1 hplaced
    -- the rows are put in another order, and the entities can be put in the same
    obtain ⟨tree, hmatch, hperm⟩ :=
      List.perm_comp_forall₂ (inOrder_perm hnodup) (hmade.1 hrows).flip
    exact ⟨tree, hperm, hmatch.flip⟩

end Persist.Level

/-! ## The levels of a tree -/

/-- The keys have ids, which are different. -/
def TellsApart {κ : Type} [Ord κ] [Std.TransOrd κ] (ids : Std.ExtTreeMap κ Id) (keys : Set κ) :
    Prop :=
  (∀ key ∈ keys, key ∈ ids) ∧ Set.InjOn (fun key => ids[key]?) keys

theorem TellsApart.eq_of_generatedId {κ : Type} [Ord κ] [Std.TransOrd κ]
    {ids : Std.ExtTreeMap κ Id} {keys : Set κ} (h : TellsApart ids keys) {key key' : κ}
    (hkey : key ∈ keys) (hkey' : key' ∈ keys) {entity text text' : String}
    (hsame : generatedId ids key entity text = generatedId ids key' entity text') : key = key' := by
  apply h.2 hkey hkey'
  obtain ⟨id, hid⟩ := Option.isSome_iff_exists.1
    (Std.ExtTreeMap.mem_iff_isSome_getElem?.1 (h.1 key hkey))
  obtain ⟨id', hid'⟩ := Option.isSome_iff_exists.1
    (Std.ExtTreeMap.mem_iff_isSome_getElem?.1 (h.1 key' hkey'))
  rw [generatedId_ok hid, generatedId_ok hid'] at hsame
  cases hsame
  exact hid.trans hid'.symm

/-- Keys that are listed once, each with an id of its own, are told apart. -/
theorem tellsApart_ofList {κ : Type} [Ord κ] [Std.TransOrd κ] [Std.LawfulEqOrd κ]
    {pairs : List (κ × Id)} {keys : Set κ} (hkeys : (pairs.map Prod.fst).Nodup)
    (hids : (pairs.map Prod.snd).Nodup) (h : ∀ key ∈ keys, key ∈ pairs.map Prod.fst) :
    TellsApart (.ofList pairs) keys := by
  have hfound : ∀ key ∈ keys, ∃ id, (key, id) ∈ pairs ∧
      (Std.ExtTreeMap.ofList pairs)[key]? = some id := by
    intro key hkey
    obtain ⟨⟨_, id⟩, hpair, rfl⟩ := List.mem_map.1 (h key hkey)
    exact ⟨id, hpair, OrderedMap.getElem?_ofList_of_nodup hkeys hpair⟩
  constructor
  · intro key hkey
    obtain ⟨id, _, hid⟩ := hfound key hkey
    rw [Std.ExtTreeMap.mem_iff_isSome_getElem?, hid]
    rfl
  · intro key hkey key' hkey' hsame
    obtain ⟨id, hpair, hid⟩ := hfound key hkey
    obtain ⟨id', hpair', hid'⟩ := hfound key' hkey'
    cases hid.symm.trans (hsame.trans hid')
    exact congrArg Prod.fst (List.inj_on_of_nodup_map hids hpair hpair' rfl)

namespace ParentIds

/-- The ids tell the places of the tree apart: those of the transactions by the hash, those of the
messages by the id of the transaction and the index, and those of the events by the id of the
message and the index. -/
structure Distinguishes (ids : ParentIds) (txs : List Tx) : Prop where
  txes : TellsApart ids.txes {hash | ∃ tx ∈ txs, tx.hash = hash}
  messages : TellsApart ids.messages {slot | ∃ tx ∈ txs, ∃ message ∈ tx.messages,
    ids.tx tx = .ok slot.parent ∧ message.index = slot.index}
  events : TellsApart ids.events {slot | ∃ tx ∈ txs, ∃ message ∈ tx.messages,
    ∃ event ∈ message.events, ids.message tx message = .ok slot.parent ∧ event.index = slot.index}

variable {ids : ParentIds}

theorem message_eq {tx : Tx} {txId : Id} (h : ids.tx tx = .ok txId) (message : Message) :
    ids.message tx message =
      generatedId ids.messages ⟨txId, message.index⟩ "message"
        (Slot.text ⟨txId, message.index⟩) := by
  rw [ParentIds.message, h]
  rfl

theorem event_eq {tx : Tx} {message : Message} {messageId : Id}
    (h : ids.message tx message = .ok messageId) (event : Event) :
    ids.event tx message event =
      generatedId ids.events ⟨messageId, event.index⟩ "message event"
        (Slot.text ⟨messageId, event.index⟩) := by
  rw [ParentIds.event, h]
  rfl

namespace Distinguishes

variable {txs : List Tx} (h : ids.Distinguishes txs)

include h

theorem findsTxes : ids.FindsTxes txs :=
  fun tx htx => exists_generatedId (h.txes.1 _ ⟨tx, htx, rfl⟩) "tx" tx.hash

theorem findsMessages : ids.FindsMessages txs := by
  intro tx htx message hmessage
  obtain ⟨txId, htxId⟩ := h.findsTxes tx htx
  rw [message_eq htxId]
  exact exists_generatedId (h.messages.1 _ ⟨tx, htx, message, hmessage, htxId, rfl⟩) _ _

theorem findsEvents : ids.FindsEvents txs := by
  intro tx htx message hmessage event hevent
  obtain ⟨messageId, hmessageId⟩ := h.findsMessages tx htx message hmessage
  rw [event_eq hmessageId]
  exact exists_generatedId
    (h.events.1 _ ⟨tx, htx, message, hmessage, event, hevent, hmessageId, rfl⟩) _ _

variable {tx tx' : Tx} {message message' : Message} {event event' : Event}

theorem hash_eq (htx : tx ∈ txs) (htx' : tx' ∈ txs) (hsame : ids.tx tx = ids.tx tx') :
    tx.hash = tx'.hash :=
  h.txes.eq_of_generatedId ⟨tx, htx, rfl⟩ ⟨tx', htx', rfl⟩ hsame

theorem message_path_eq (htx : tx ∈ txs) (hmessage : message ∈ tx.messages) (htx' : tx' ∈ txs)
    (hmessage' : message' ∈ tx'.messages)
    (hsame : ids.message tx message = ids.message tx' message') :
    (Parent.message tx message).path = (Parent.message tx' message').path := by
  obtain ⟨txId, hid⟩ := h.findsTxes tx htx
  obtain ⟨txId', hid'⟩ := h.findsTxes tx' htx'
  rw [message_eq hid, message_eq hid'] at hsame
  have hslot := h.messages.eq_of_generatedId ⟨tx, htx, message, hmessage, hid, rfl⟩
    ⟨tx', htx', message', hmessage', hid', rfl⟩ hsame
  obtain ⟨rfl, hindex⟩ := Slot.mk.inj hslot
  rw [Parent.path, Parent.path, h.hash_eq htx htx' (hid.trans hid'.symm), hindex]

theorem event_path_eq (htx : tx ∈ txs) (hmessage : message ∈ tx.messages)
    (hevent : event ∈ message.events) (htx' : tx' ∈ txs) (hmessage' : message' ∈ tx'.messages)
    (hevent' : event' ∈ message'.events)
    (hsame : ids.event tx message event = ids.event tx' message' event') :
    (Parent.event tx message event).path = (Parent.event tx' message' event').path := by
  obtain ⟨messageId, hid⟩ := h.findsMessages tx htx message hmessage
  obtain ⟨messageId', hid'⟩ := h.findsMessages tx' htx' message' hmessage'
  rw [event_eq hid, event_eq hid'] at hsame
  have hslot := h.events.eq_of_generatedId
    ⟨tx, htx, message, hmessage, event, hevent, hid, rfl⟩
    ⟨tx', htx', message', hmessage', event', hevent', hid', rfl⟩ hsame
  obtain ⟨rfl, hindex⟩ := Slot.mk.inj hslot
  have habove := h.message_path_eq htx hmessage htx' hmessage' (hid.trans hid'.symm)
  simp only [Parent.path, Prod.mk.injEq, List.cons.injEq, and_true] at habove ⊢
  exact ⟨habove.1, habove.2, hindex⟩

theorem separates_messageFamilies : ids.Separates (messageFamilies txs) where
  known := forall_mem_messageFamilies.2 h.findsTxes
  apart := by
    refine forall_mem_messageFamilies.2 fun tx htx => forall_mem_messageFamilies.2 ?_
    intro tx' htx' hsame
    rw [Parent.path, Parent.path, h.hash_eq htx htx' hsame]

theorem separates_eventFamilies : ids.Separates (eventFamilies txs) where
  known := forall_mem_eventFamilies.2 h.findsMessages
  apart := forall_mem_eventFamilies.2 fun _ htx _ hmessage =>
    forall_mem_eventFamilies.2 fun _ htx' _ hmessage' =>
      h.message_path_eq htx hmessage htx' hmessage'

theorem separates_attributeFamilies : ids.Separates (attributeFamilies txs) where
  known := forall_mem_attributeFamilies.2 h.findsEvents
  apart := forall_mem_attributeFamilies.2 fun _ htx _ hmessage _ hevent =>
    forall_mem_attributeFamilies.2 fun _ htx' _ hmessage' _ hevent' =>
      h.event_path_eq htx hmessage hevent htx' hmessage' hevent'

/-- Of the messages, of the events and of the attributes of a tree, rows can be made exactly if
every text of the level is resolved and no two siblings share an index, whatever texts are resolved.
Then each entity has one row, with the ids of its own parent and its own text, and the rows come in
strictly ascending order of the parent and the index. -/
theorem flattens_tree (refs : ResolvedReferences) :
    Level.messages.Flattens ids refs (messageFamilies txs) (messageRows ids refs txs) ∧
    Level.events.Flattens ids refs (eventFamilies txs) (eventRows ids refs txs) ∧
    Level.attributes.Flattens ids refs (attributeFamilies txs) (attributeRows ids refs txs) := by
  refine ⟨Level.messages.flattens_placeAll h.separates_messageFamilies ?_,
    Level.events.flattens_placeAll h.separates_eventFamilies ?_,
    Level.attributes.flattens_placeAll h.separates_attributeFamilies ?_⟩
  · simp only [messageCandidates, withParents, messageFamilies, List.flatMap_map, List.map_flatMap,
      List.map_map]
    refine List.flatMap_congr fun tx htx => ?_
    obtain ⟨txId, htxId⟩ := h.findsTxes tx htx
    exact Level.messages.candidatesBelow_parent (.tx tx) htxId tx.messages
  · simp only [eventCandidates, withParents, eventFamilies, List.flatMap_map, List.map_flatMap,
      List.map_map, List.flatMap_assoc]
    refine List.flatMap_congr fun tx htx => ?_
    obtain ⟨txId, htxId⟩ := h.findsTxes tx htx
    rw [htxId]
    refine List.flatMap_congr fun message hmessage => ?_
    obtain ⟨messageId, hmessageId⟩ := h.findsMessages tx htx message hmessage
    exact Level.events.candidatesBelow_parent (.message tx message) hmessageId
      message.events
  · simp only [attributeCandidates, withParents, attributeFamilies, List.flatMap_map,
      List.map_flatMap, List.map_map, List.flatMap_assoc]
    refine List.flatMap_congr fun tx htx => ?_
    obtain ⟨txId, htxId⟩ := h.findsTxes tx htx
    rw [htxId]
    refine List.flatMap_congr fun message hmessage => ?_
    obtain ⟨messageId, hmessageId⟩ := h.findsMessages tx htx message hmessage
    rw [hmessageId]
    refine List.flatMap_congr fun event hevent => ?_
    obtain ⟨eventId, heventId⟩ := h.findsEvents tx htx message hmessage event hevent
    exact Level.attributes.candidatesBelow_parent (.event tx message event) heventId
      event.attributes

end Distinguishes

/-- Two transactions are numbered against the order of their hashes, and messages and attributes are
listed against that of their indexes. The type of the events is not resolved. -/
theorem Distinguishes.flattens_tree_of_reversed :
    let send : Message := ⟨"send", 1, [⟨"transfer", 4, [⟨"amount", 2, "5"⟩, ⟨"amount", 0, "7"⟩]⟩]⟩
    let txs := [Tx.new "h1" 0 none [send, ⟨"vote", 0, []⟩], Tx.new "h2" 0 none [send]]
    let txes : List (String × Id) := [("h1", 7), ("h2", 3)]
    let messages : List (Slot × Id) := [(⟨3, 1⟩, 10), (⟨7, 0⟩, 12), (⟨7, 1⟩, 11)]
    let events : List (Slot × Id) := [(⟨10, 4⟩, 20), (⟨11, 4⟩, 21)]
    let ids : ParentIds :=
      { txes := .ofList txes, messages := .ofList messages, events := .ofList events }
    let refs := ResolvedReferences.ofEntries [] [] [⟨5, "amount"⟩]
    ids.Distinguishes txs ∧
      (∃ rows, attributeRows ids refs txs = .ok rows ∧ Ascending .attributes rows ∧
        rows.length = 4) ∧
      ¬ ∃ rows, eventRows ids refs txs = .ok rows := by
  intro send txs txes messages events ids refs
  have hdistinguishes : ids.Distinguishes txs := by
    have hmessages : ∀ tx ∈ txs, ∀ message ∈ tx.messages,
        (⟨(ids.tx tx).toOption.getD 0, message.index⟩ : Slot) ∈ messages.map Prod.fst := by
      decide +kernel
    have hevents : ∀ tx ∈ txs, ∀ message ∈ tx.messages, ∀ event ∈ message.events,
        (⟨(ids.message tx message).toOption.getD 0, event.index⟩ : Slot) ∈
          events.map Prod.fst := by
      decide +kernel
    refine ⟨tellsApart_ofList (by decide) (by decide) ?_,
      tellsApart_ofList (by decide) (by decide) ?_, tellsApart_ofList (by decide) (by decide) ?_⟩
    · rintro _ ⟨tx, htx, rfl⟩
      revert tx
      decide
    · rintro ⟨parent, _⟩ ⟨tx, htx, message, hmessage, hid, rfl⟩
      have hslot := hmessages tx htx message hmessage
      rwa [hid] at hslot
    · rintro ⟨parent, _⟩ ⟨tx, htx, message, hmessage, event, hevent, hid, rfl⟩
      have hslot := hevents tx htx message hmessage event hevent
      rwa [hid] at hslot
  obtain ⟨_, hevents, hattributes⟩ := hdistinguishes.flattens_tree refs
  refine ⟨hdistinguishes, ?_, fun hrows => ?_⟩
  · have happart : Level.attributes.SiblingsApart (attributeFamilies txs) :=
      (Level.attributes.siblingsApart_iff (by decide)).2 (by decide)
    have htexts : ∀ member ∈ withParents (attributeFamilies txs),
        ∃ id, refs.id .attributeKey member.2.key = .ok id := by
      have hkeys : ∀ member ∈ withParents (attributeFamilies txs), member.2.key = "amount" := by
        decide
      intro member hmember
      rw [hkeys member hmember]
      exact ⟨5, by decide +kernel⟩
    obtain ⟨rows, hrows⟩ := hattributes.ok_iff.2 ⟨htexts, happart⟩
    obtain ⟨tree, hperm, hmatch⟩ := hattributes.bijection rows hrows
    refine ⟨rows, hrows, hattributes.ascending rows hrows, ?_⟩
    rw [← hmatch.length_eq, hperm.length_eq]
    rfl
  · obtain ⟨id, hid⟩ := (hevents.ok_iff.1 hrows).1 _ List.mem_cons_self
    have hmissing : refs.id .eventType "transfer" =
        .error (.unregisteredReference .eventType "transfer") := by
      decide +kernel
    cases hmissing.symm.trans hid

end ParentIds

end BlockArchive
