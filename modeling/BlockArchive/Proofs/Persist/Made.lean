import BlockArchive.Proofs.Persist.Outcome

/-!
# Transactions that are made of messages

A transaction that is made of messages, one after the other, registers each text that they use under
itself, and no other text. Transactions that do so agree about every key, so what a block brings
along holds each text once and lacks none that is used. Then there is only one thing for which a
block on a chain that is there can fail: two messages, events or attributes that claim one place.

## Main definitions

- `TextMap.KeyedByText`: every text is registered under itself
- `TextMap.IsOf`: exactly some texts are registered, each under itself
- `Tx.Made`: the transactions that are made of messages
- `Tx.Repeats`: two messages, events or attributes claim one place

## Main statements

- `Tx.Made.registers`: what is registered in a transaction that is made of messages
- `ReferenceData.isOf_collect`: what transactions bring along that register what they use
- `Persist.levelFault?_of_known`: the faults of messages whose texts are all known
- `Tx.made_registers_and_persists`: transactions that are made of messages and how they are stored
-/

namespace BlockArchive

open Persist

/-! ## Texts that are registered under themselves -/

/-- Every text is registered under itself. -/
def TextMap.KeyedByText (texts : TextMap) : Prop :=
  ∀ key text : String, texts[key]? = some text → text = key

namespace TextMap.KeyedByText

variable {texts more : TextMap}

theorem empty : TextMap.KeyedByText ∅ := by
  intro key text h
  rw [Std.ExtTreeMap.getElem?_empty] at h
  cases h

theorem union (h : texts.KeyedByText) (h' : more.KeyedByText) : (texts ∪ more).KeyedByText := by
  intro key text htext
  rw [Std.ExtTreeMap.getElem?_union, Option.or_eq_some_iff] at htext
  rcases htext with hmore | ⟨_, htexts⟩
  · exact h' key text hmore
  · exact h key text htexts

/-- Texts that are registered under themselves come in their own order. -/
theorem pairwise_values (h : texts.KeyedByText) :
    texts.values.Pairwise fun a b => compare a b = .lt := by
  have hself : ∀ key text : String, texts[key]? = some text → text = key := h
  exact OrderedMap.pairwise_values hself

/-- No text is registered twice. -/
theorem nodup_values (h : texts.KeyedByText) : texts.values.Nodup := by
  refine h.pairwise_values.imp fun {a b} hlt heq => ?_
  rw [heq, Std.ReflOrd.compare_self] at hlt
  cases hlt

end TextMap.KeyedByText

/-- Exactly these texts are registered, each under itself. -/
def TextMap.IsOf (texts : TextMap) (used : List String) : Prop :=
  ∀ key : String, texts[key]? = if key ∈ used then some key else none

namespace TextMap.IsOf

variable {texts more : TextMap} {used others : List String}

theorem empty : TextMap.IsOf ∅ [] := by
  intro key
  rw [Std.ExtTreeMap.getElem?_empty]
  rfl

theorem register (h : texts.IsOf used) (text : String) :
    TextMap.IsOf (Tx.register texts text) (used ++ [text]) := by
  intro key
  have hmem : text ∈ texts ↔ text ∈ used := by
    rw [Std.ExtTreeMap.mem_iff_isSome_getElem?, h]
    simp
  rw [Tx.register, Std.ExtTreeMap.getElem?_insertIfNew, h]
  simp only [hmem, Std.LawfulEqOrd.compare_eq_iff_eq, List.mem_append, List.mem_singleton]
  by_cases hkey : text = key
  · subst hkey
    by_cases hused : text ∈ used <;> simp [hused]
  · simp [hkey, Ne.symm hkey]

theorem foldl_register (h : texts.IsOf used) (others : List String) :
    TextMap.IsOf (others.foldl Tx.register texts) (used ++ others) := by
  induction others generalizing texts used with
  | nil => rwa [List.append_nil]
  | cons text rest ih =>
    rw [List.append_cons]
    exact ih (h.register text)

/-- Texts that are registered under themselves do not get in each other's way. -/
theorem union (h : texts.IsOf used) (h' : more.IsOf others) :
    TextMap.IsOf (texts ∪ more) (used ++ others) := by
  intro key
  rw [Std.ExtTreeMap.getElem?_union, h, h']
  by_cases hkey : key ∈ others <;> simp [hkey]

theorem mem_values (h : texts.IsOf used) {text : String} : text ∈ texts.values ↔ text ∈ used := by
  rw [OrderedMap.mem_values]
  constructor
  · rintro ⟨key, hkey⟩
    rw [h] at hkey
    split at hkey
    · next hmem =>
      cases hkey
      exact hmem
    · cases hkey
  · intro hmem
    exact ⟨text, by rw [h, if_pos hmem]⟩

theorem keyedByText (h : texts.IsOf used) : texts.KeyedByText := by
  intro key value hvalue
  rw [h] at hvalue
  split at hvalue
  · cases hvalue
    rfl
  · cases hvalue

/-- What is registered is told by which texts are used. -/
theorem unique (h : texts.IsOf used) (h' : more.IsOf others)
    (hsame : ∀ key, key ∈ others ↔ key ∈ used) : more = texts := by
  apply Std.ExtTreeMap.ext_getElem?
  intro key
  rw [h, h']
  simp only [hsame]

end TextMap.IsOf

/-! ## Transactions -/

/-- The texts of a kind that the message uses, in order. -/
def Message.texts (message : Message) : ReferenceKind → List String
  | .messageType => [message.messageType]
  | .eventType => message.eventTypes
  | .attributeKey => message.attributeKeys

/-- The texts of a kind that messages use, in order. -/
def Message.textsOf (messages : List Message) (kind : ReferenceKind) : List String :=
  messages.flatMap fun message => message.texts kind

namespace Tx

/-- The texts of a kind that the transaction brings along. -/
def registered (tx : Tx) : ReferenceKind → TextMap
  | .messageType => tx.messageTypes
  | .eventType => tx.eventTypes
  | .attributeKey => tx.attributeKeys

/-- The transaction has been made of the messages: of a list of them, or by adding one more, and
with whatever fees. -/
inductive Made : List Message → Tx → Prop
  | new (hash : String) (code : Int32) (signer : Option String) (messages : List Message) :
    Made messages (Tx.new hash code signer messages)
  | addMessage {messages : List Message} {tx : Tx} (h : Made messages tx) (message : Message) :
    Made (messages ++ [message]) (tx.addMessage message)
  | withFees {messages : List Message} {tx : Tx} (h : Made messages tx) (fees : List Fee) :
    Made messages (tx.withFees fees)

/-- The transaction has these messages, and it registers exactly the texts that they use. -/
structure Registers (tx : Tx) (messages : List Message) : Prop where
  messages_eq : tx.messages = messages
  isOf : ∀ kind, (tx.registered kind).IsOf (Message.textsOf messages kind)

theorem Registers.addMessage {tx : Tx} {messages : List Message} (h : tx.Registers messages)
    (message : Message) : (tx.addMessage message).Registers (messages ++ [message]) where
  messages_eq := congrArg (· ++ [message]) h.messages_eq
  isOf kind := by
    rw [Message.textsOf, List.flatMap_append, List.flatMap_singleton]
    cases kind with
    | messageType => exact (h.isOf .messageType).register message.messageType
    | eventType => exact (h.isOf .eventType).foldl_register message.eventTypes
    | attributeKey => exact (h.isOf .attributeKey).foldl_register message.attributeKeys

theorem Registers.foldl_addMessage {tx : Tx} {messages : List Message} (h : tx.Registers messages)
    (others : List Message) : (others.foldl Tx.addMessage tx).Registers (messages ++ others) := by
  induction others generalizing tx messages with
  | nil => rwa [List.append_nil]
  | cons message rest ih =>
    rw [List.append_cons]
    exact ih (h.addMessage message)

/-- A transaction that is made of messages registers exactly what they use. -/
theorem Made.registers {messages : List Message} {tx : Tx} (h : Made messages tx) :
    tx.Registers messages := by
  induction h with
  | new hash code signer messages =>
    have hempty : (Tx.new hash code signer []).Registers [] :=
      ⟨rfl, fun kind => by cases kind <;> exact TextMap.IsOf.empty⟩
    exact hempty.foldl_addMessage messages
  | addMessage _ message ih => exact ih.addMessage message
  | withFees _ fees ih =>
    refine ⟨ih.messages_eq, fun kind => ?_⟩
    cases kind
    · exact ih.isOf .messageType
    · exact ih.isOf .eventType
    · exact ih.isOf .attributeKey

end Tx

/-! ## What a block brings along -/

namespace ReferenceData

/-- The texts of a kind by their keys. -/
def registered (data : ReferenceData) : ReferenceKind → TextMap
  | .messageType => data.messageTypes
  | .eventType => data.eventTypes
  | .attributeKey => data.attributeKeys

theorem texts_eq (data : ReferenceData) (kind : ReferenceKind) :
    data.texts kind = (data.registered kind).values := by
  cases kind <;> rfl

theorem registered_collect_concat (txs : List Tx) (tx : Tx) (kind : ReferenceKind) :
    (collect (txs ++ [tx])).registered kind =
      (collect txs).registered kind ∪ tx.registered kind := by
  have hcollect : collect (txs ++ [tx]) = (collect txs).merge (ofTx tx) := List.foldl_concat ..
  rw [hcollect]
  cases kind <;> rfl

/-- Transactions that register every text of a kind under itself bring them along in this way. -/
theorem keyedByText_collect {txs : List Tx} {kind : ReferenceKind}
    (h : ∀ tx ∈ txs, (tx.registered kind).KeyedByText) :
    ((collect txs).registered kind).KeyedByText := by
  induction txs using List.reverseRecOn with
  | nil => cases kind <;> exact TextMap.KeyedByText.empty
  | append_singleton txs tx ih =>
    rw [registered_collect_concat]
    have hothers := ih fun other hother => h other (List.mem_append_left _ hother)
    exact hothers.union (h tx (by simp))

/-- Transactions that register what they use bring along what they use together. -/
theorem isOf_collect {txs : List Tx} (h : ∀ tx ∈ txs, tx.Registers tx.messages)
    (kind : ReferenceKind) :
    ((collect txs).registered kind).IsOf (Message.textsOf (txs.flatMap (·.messages)) kind) := by
  induction txs using List.reverseRecOn with
  | nil => cases kind <;> exact TextMap.IsOf.empty
  | append_singleton txs tx ih =>
    have hlast := (h tx (by simp)).isOf kind
    have hothers := ih fun other hother => h other (List.mem_append_left _ hother)
    rw [registered_collect_concat, List.flatMap_append, List.flatMap_singleton, Message.textsOf,
      List.flatMap_append]
    exact hothers.union hlast

end ReferenceData

/-! ## The faults that are left -/

/-- Two messages of the transaction claim one place, or two events of a message or two attributes of
an event do. -/
def Tx.Repeats (tx : Tx) : ReferenceKind → Prop
  | .messageType => ¬ (tx.messages.map (·.index)).Nodup
  | .eventType => ∃ message ∈ tx.messages, ¬ (message.events.map (·.index)).Nodup
  | .attributeKey => ∃ message ∈ tx.messages, ∃ event ∈ message.events,
      ¬ (event.attributes.map (·.index)).Nodup

instance (tx : Tx) : (kind : ReferenceKind) → Decidable (tx.Repeats kind)
  | .messageType => inferInstanceAs (Decidable (¬ _))
  | .eventType => inferInstanceAs (Decidable (∃ _ ∈ _, _))
  | .attributeKey => inferInstanceAs (Decidable (∃ _ ∈ _, _))

namespace Persist

namespace Level

variable {α : Type} (L : Level α) {known : List String}

/-- Where all texts are known the only fault is that a place is claimed twice. -/
theorem eq_repeated_of_faultAmong? {parent : Parent} {taken : List Int64} {members : List α}
    {fault : Fault} (hknown : ∀ a ∈ members, L.text a ∈ known)
    (h : L.faultAmong? known parent taken members = some fault) :
    ∃ index, fault = .repeated L.kind parent index := by
  induction members generalizing taken with
  | nil => cases h
  | cons a rest ih =>
    rw [faultAmong?, if_neg (not_not_intro (hknown a List.mem_cons_self))] at h
    split at h
    · cases h
      exact ⟨L.index a, rfl⟩
    · exact ih (fun b hb => hknown b (List.mem_cons_of_mem a hb)) h

/-- Two of those with one parent claim one place. -/
def Repeats (families : List (Family α)) : Prop :=
  ∃ family ∈ families, ¬ (family.members.map L.index).Nodup

theorem fault?_of_known {families : List (Family α)}
    (hknown : ∀ family ∈ families, ∀ a ∈ family.members, L.text a ∈ known) :
    (L.fault? known families = none ∧ ¬ L.Repeats families) ∨
      (L.Repeats families ∧
        ∃ parent index, L.fault? known families = some (.repeated L.kind parent index)) := by
  cases hfault : L.fault? known families with
  | none =>
    rw [fault?_eq_none] at hfault
    exact Or.inl ⟨rfl, fun ⟨family, hfamily, hrepeats⟩ => hrepeats (hfault family hfamily).2⟩
  | some fault =>
    obtain ⟨family, hfamily, hamong⟩ := List.exists_of_findSome?_eq_some hfault
    obtain ⟨index, rfl⟩ := L.eq_repeated_of_faultAmong? (hknown family hfamily) hamong
    refine Or.inr ⟨⟨family, hfamily, fun hnodup => ?_⟩, family.parent, index, rfl⟩
    have hnone : L.faultAmong? known family.parent [] family.members = none :=
      (L.faultAmong?_eq_none known).2
        ⟨⟨hknown family hfamily, hnodup⟩, fun _ _ => List.not_mem_nil⟩
    rw [hnone] at hamong
    cases hamong

end Level

section Known

variable {data : ReferenceData} {txs : List Tx}

theorem repeats_messageFamilies :
    Level.messages.Repeats (messageFamilies txs) ↔ ∃ tx ∈ txs, tx.Repeats .messageType := by
  simp [Level.Repeats, messageFamilies, Tx.Repeats]

theorem repeats_eventFamilies :
    Level.events.Repeats (eventFamilies txs) ↔ ∃ tx ∈ txs, tx.Repeats .eventType := by
  rw [← not_iff_not]
  simp only [Level.Repeats, Tx.Repeats, not_exists, not_and]
  exact forall_mem_eventFamilies

theorem repeats_attributeFamilies :
    Level.attributes.Repeats (attributeFamilies txs) ↔ ∃ tx ∈ txs, tx.Repeats .attributeKey := by
  rw [← not_iff_not]
  simp only [Level.Repeats, Tx.Repeats, not_exists, not_and]
  exact forall_mem_attributeFamilies

/-- Where all texts are known a place is claimed twice or there is no fault. -/
theorem levelFault?_of_known
    (hknown : ∀ kind, ∀ tx ∈ txs, ∀ text ∈ Message.textsOf tx.messages kind,
      text ∈ data.texts kind) :
    (levelFault? data txs = none ∧ ¬ ∃ kind, ∃ tx ∈ txs, tx.Repeats kind) ∨
      ∃ kind parent index, levelFault? data txs = some (.repeated kind parent index) ∧
        ∃ tx ∈ txs, tx.Repeats kind := by
  have hmessages : ∀ family ∈ messageFamilies txs, ∀ message ∈ family.members,
      message.messageType ∈ data.texts .messageType := by
    refine forall_mem_messageFamilies.2 fun tx htx message hmessage => hknown _ tx htx _ ?_
    exact List.mem_flatMap.2 ⟨message, hmessage, List.mem_cons_self⟩
  have hevents : ∀ family ∈ eventFamilies txs, ∀ event ∈ family.members,
      event.eventType ∈ data.texts .eventType := by
    refine forall_mem_eventFamilies.2 fun tx htx message hmessage event hevent =>
      hknown _ tx htx _ ?_
    exact List.mem_flatMap.2 ⟨message, hmessage, List.mem_map_of_mem hevent⟩
  have hattributes : ∀ family ∈ attributeFamilies txs, ∀ detail ∈ family.members,
      detail.key ∈ data.texts .attributeKey := by
    refine forall_mem_attributeFamilies.2 fun tx htx message hmessage event hevent detail hdetail =>
      hknown _ tx htx _ ?_
    exact List.mem_flatMap.2
      ⟨message, hmessage, List.mem_flatMap.2 ⟨event, hevent, List.mem_map_of_mem hdetail⟩⟩
  rw [levelFault?]
  -- a level counts only where those above it are without a fault
  rcases Level.messages.fault?_of_known hmessages with ⟨hnone, hfree⟩ | ⟨hrepeats, parent, index, h⟩
  · rw [hnone, Option.none_or]
    rcases Level.events.fault?_of_known hevents with ⟨hnone', hfree'⟩ | ⟨hrepeats, parent, index, h⟩
    · rw [hnone', Option.none_or]
      rcases Level.attributes.fault?_of_known hattributes with
        ⟨hnone'', hfree''⟩ | ⟨hrepeats, parent, index, h⟩
      · refine Or.inl ⟨hnone'', ?_⟩
        rintro ⟨kind, hrepeats⟩
        cases kind with
        | messageType => exact hfree (repeats_messageFamilies.2 hrepeats)
        | eventType => exact hfree' (repeats_eventFamilies.2 hrepeats)
        | attributeKey => exact hfree'' (repeats_attributeFamilies.2 hrepeats)
      · exact Or.inr ⟨_, parent, index, h, repeats_attributeFamilies.1 hrepeats⟩
    · rw [h, Option.some_or]
      exact Or.inr ⟨_, parent, index, rfl, repeats_eventFamilies.1 hrepeats⟩
  · rw [h, Option.some_or]
    exact Or.inr ⟨_, parent, index, rfl, repeats_messageFamilies.1 hrepeats⟩

/-- What a block brings along whose transactions register what they use has no text twice and lacks
none, so only the levels can have a fault. -/
theorem defect?_of_registers {s : Store} {block : Block} (hchain : block.chain ∈ s.chains.rows)
    (h : ∀ tx ∈ txs, tx.Registers tx.messages) :
    (defect? s block txs = none ∧ ¬ ∃ kind, ∃ tx ∈ txs, tx.Repeats kind) ∨
      ∃ kind parent index, defect? s block txs = some (.repeated kind parent index) ∧
        ∃ tx ∈ txs, tx.Repeats kind := by
  have hthere : chainFault? s block = none := if_pos hchain
  have htexts : textsFault? repeatFault? (ReferenceData.collect txs) = none := by
    refine textsFault?_eq_none.2 fun kind part hpart => repeatFault?_eq_none.2 ?_
    have hnodup : ((ReferenceData.collect txs).texts kind).Nodup := by
      rw [ReferenceData.texts_eq]
      exact (ReferenceData.isOf_collect h kind).keyedByText.nodup_values
    exact hnodup.sublist (ReferenceKind.sublist_of_mem_statements hpart)
  have hknown : ∀ kind, ∀ tx ∈ txs, ∀ text ∈ Message.textsOf tx.messages kind,
      text ∈ (ReferenceData.collect txs).texts kind := by
    intro kind tx htx text htext
    rw [ReferenceData.texts_eq, (ReferenceData.isOf_collect h kind).mem_values]
    obtain ⟨message, hmessage, hused⟩ := List.mem_flatMap.1 htext
    exact List.mem_flatMap.2 ⟨message, List.mem_flatMap.2 ⟨tx, htx, hmessage⟩, hused⟩
  rw [defect?, hthere, htexts]
  exact levelFault?_of_known hknown

end Known

end Persist

/-- A block of transactions that register what they use is stored unless one of them claims a place
twice. -/
theorem Step.persist_of_registers {s : Store} {block : Block} {txs : List Tx} (hs : s.Sound)
    (hchain : block.chain ∈ s.chains.rows)
    (hregisters : ∀ tx ∈ Tx.uniqueByHash txs, tx.Registers tx.messages)
    (haccepted : Accepted block (Tx.uniqueByHash txs)) :
    ((persist block txs).Succeeds s ∧ ¬ ∃ kind, ∃ tx ∈ Tx.uniqueByHash txs, tx.Repeats kind) ∨
      ¬ (persist block txs).Succeeds s ∧ ∃ kind slot,
        (∃ tx ∈ Tx.uniqueByHash txs, tx.Repeats kind) ∧
          ((persist block txs).outcome s).answer =
            .error (.repo (.duplicateIndex kind.entity (Slot.text slot))) := by
  have hfault := fault?_of_accepted (s := s) haccepted
  rw [succeeds_persist_iff hs, hfault]
  rcases defect?_of_registers hchain hregisters with
    hfree | ⟨kind, parent, index, hdefect, hrepeats⟩
  · exact Or.inl hfree
  · rw [hdefect] at hfault ⊢
    refine Or.inr ⟨Option.some_ne_none _, kind, ?_⟩
    rcases persist_cases hs block txs with
      ⟨hnone, _⟩ | ⟨fault, failure, hsome, htells, hanswer, _⟩
    · rw [hfault] at hnone
      cases hnone
    · cases hfault.symm.trans hsome
      obtain ⟨id, _, rfl⟩ := htells
      exact ⟨⟨id, index⟩, hrepeats, hanswer⟩

/-- Whatever transactions are made of messages, be it from a list or by adding one more, each has
registered exactly the texts that its messages use, each under itself and in whatever order they
came. A block of such transactions, on a chain that is there and with a time and texts that can be
sent, is stored exactly if in no surviving transaction two messages, events or attributes with one
parent share their index. Otherwise the answer is that an index is claimed twice, and nothing
else. -/
theorem Tx.made_registers_and_persists :
    (∀ messages tx, Tx.Made messages tx →
      tx.messages = messages ∧
      (∀ kind (key : String), (tx.registered kind)[key]? =
        if key ∈ Message.textsOf messages kind then some key else none) ∧
      ∀ messages' tx', Tx.Made messages' tx' → messages'.Perm messages →
        ∀ kind, tx'.registered kind = tx.registered kind) ∧
    ∀ (s : Store) (block : Block) (txs : List Tx), s.Reachable → block.chain ∈ s.chains.rows →
      (∀ tx ∈ txs, ∃ messages, Tx.Made messages tx) → Accepted block (Tx.uniqueByHash txs) →
      ((Step.persist block txs).Succeeds s ↔
        ¬ ∃ kind, ∃ tx ∈ Tx.uniqueByHash txs, tx.Repeats kind) ∧
      (¬ (Step.persist block txs).Succeeds s →
        ∃ kind slot, (∃ tx ∈ Tx.uniqueByHash txs, tx.Repeats kind) ∧
          ((Step.persist block txs).outcome s).answer =
            .error (.repo (.duplicateIndex kind.entity (Slot.text slot)))) := by
  refine ⟨fun messages tx hmade => ?_, fun s block txs hs hchain hmade haccepted => ?_⟩
  · have hregisters := hmade.registers
    refine ⟨hregisters.messages_eq, hregisters.isOf, fun messages' tx' hmade' hperm kind => ?_⟩
    exact (hregisters.isOf kind).unique (hmade'.registers.isOf kind) fun key =>
      (hperm.flatMap_right _).mem_iff
  · have hregisters : ∀ tx ∈ Tx.uniqueByHash txs, tx.Registers tx.messages := by
      intro tx htx
      obtain ⟨messages, hmade⟩ := hmade tx (Tx.mem_of_mem_uniqueByHash htx)
      rw [hmade.registers.messages_eq]
      exact hmade.registers
    rcases Step.persist_of_registers hs.sound hchain hregisters haccepted with
      ⟨hok, hfree⟩ | ⟨hfails, kind, slot, hrepeats, hanswer⟩
    · exact ⟨iff_of_true hok hfree, fun hfails => absurd hok hfails⟩
    · exact ⟨iff_of_false hfails (not_not_intro ⟨kind, hrepeats⟩),
        fun _ => ⟨kind, slot, hrepeats, hanswer⟩⟩

/-- A transaction that claims a place twice is superseded by another one with its hash, and does not
count. -/
theorem Tx.made_registers_and_persists_of_repeated_hash :
    let s := (Step.registerChain ⟨"a-1", "A"⟩).next ∅
    let send : Message := ⟨"send", 0, [⟨"transfer", 0, [⟨"amount", 0, "5"⟩, ⟨"amount", 1, "7"⟩]⟩]⟩
    let twice := Tx.new "h1" 0 none [send, ⟨"vote", 0, []⟩]
    let once := ((Tx.new "h1" 0 (some "alice") [send]).addMessage ⟨"vote", 1, []⟩).withFees
      [⟨"1", "uatom", none⟩]
    let other := Tx.new "h2" 0 none [send]
    (once.registered .attributeKey)["amount"]? = some "amount" ∧ twice.Repeats .messageType ∧
      (Step.persist ⟨1, 7, Instant.zero⟩ [twice, once, other]).Succeeds s := by
  intro s send twice once other
  obtain ⟨hregisters, hpersists⟩ := Tx.made_registers_and_persists
  have hs : s.Reachable := .step .empty _
  have htwice : Tx.Made [send, ⟨"vote", 0, []⟩] twice := .new ..
  have honce : Tx.Made [send, ⟨"vote", 1, []⟩] once :=
    .withFees (.addMessage (.new "h1" 0 (some "alice") [send]) _) _
  have hother : Tx.Made [send] other := .new ..
  have hmade : ∀ tx ∈ [twice, once, other], ∃ messages, Tx.Made messages tx := by
    simp only [List.mem_cons, List.not_mem_nil, or_false]
    rintro tx (rfl | rfl | rfl)
    · exact ⟨_, htwice⟩
    · exact ⟨_, honce⟩
    · exact ⟨_, hother⟩
  have haccepted : Accepted ⟨1, 7, Instant.zero⟩ (Tx.uniqueByHash [twice, once, other]) := by
    refine ⟨by decide +kernel, by decide +kernel, by decide +kernel, fun kind => ?_,
      by decide +kernel⟩
    cases kind <;> decide +kernel
  have hfree : ¬ ∃ kind, ∃ tx ∈ Tx.uniqueByHash [twice, once, other], tx.Repeats kind := by
    rintro ⟨kind, hrepeats⟩
    revert hrepeats
    cases kind <;> decide +kernel
  refine ⟨(hregisters _ _ honce).2.1 .attributeKey "amount", by decide, ?_⟩
  exact (hpersists s _ _ hs (by decide +kernel) hmade haccepted).1.2 hfree

end BlockArchive
