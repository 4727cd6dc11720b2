import BlockArchive.Lookup
import BlockArchive.Proofs.History.Moment
import BlockArchive.Proofs.Frame
import BlockArchive.Proofs.Persist.Outcome
import BlockArchive.Proofs.Store.Listing

/-!
# The history of a shared text

A text that many transactions share is stored by the first block that brings it, and then stays as
it is for good: no other step brings one, a block that cannot be stored brings none, and nothing
takes one out.

## Main definitions

- `Tx.Bring`: what transactions bring to a table of shared texts
- `Moment.Brings`: a step brings a shared text
- `Store.HasText`: a shared text is stored

## Main statements

- `ReferenceData.getElem?_collect`: the texts that are left when those of a block are merged
- `Step.shared_kept`, `Step.hasText_persist`: shared texts stay, and a block adds those it brings
- `Moment.hasText_next`: the shared texts after one step
- `Store.hasText_after`: those after a run
- `Store.shared_texts_follow_history`: the shared texts of a run, and the addresses that are found
-/

namespace BlockArchive

open Persist

namespace Tx

/-- The text is registered under some key, and the last transaction that has the key has it so. -/
def RegistersLast (registered : Tx → TextMap) (txs : List Tx) (text : String) : Prop :=
  ∃ key : String, (txs.reverse.findSome? fun tx => (registered tx)[key]?) = some text

/-- What transactions bring to a table of shared texts: to that of the addresses those who signed,
and to that of a kind the texts that are registered last under their keys. -/
def Bring (txs : List Tx) : TableName → String → Prop
  | .addresses, text => ∃ tx ∈ txs, tx.signer = some text
  | .messageTypes, text => RegistersLast (·.messageTypes) txs text
  | .eventTypes, text => RegistersLast (·.eventTypes) txs text
  | .attributeKeys, text => RegistersLast (·.attributeKeys) txs text
  | _, _ => False

end Tx

/-- The step succeeds in storing a block whose surviving transactions bring the text. -/
def Moment.Brings (m : Moment) (n : TableName) (text : String) : Prop :=
  m.Succeeds ∧ ∃ block txs, m.step = .persist block txs ∧ Tx.Bring (Tx.uniqueByHash txs) n text

/-- The tables of shared texts. -/
def TableName.shared : List TableName :=
  [.addresses, .messageTypes, .eventTypes, .attributeKeys]

/-- The text is in the table. -/
def Store.HasText (s : Store) (n : TableName) (text : String) : Prop :=
  ∃ entry ∈ (s.get n).entries, n.key entry.row = .text text

/-! ## What a block brings -/

namespace ReferenceData

/-- Of the texts of a block those are left that are registered last under their keys. -/
theorem getElem?_collect {field : ReferenceData → TextMap} (hempty : field ∅ = ∅)
    (hmerge : ∀ a b, field (a.merge b) = field a ∪ field b) (txs : List Tx) (key : String) :
    (field (collect txs))[key]? = txs.reverse.findSome? fun tx => (field (ofTx tx))[key]? := by
  induction txs using List.reverseRecOn with
  | nil =>
    show (field ∅)[key]? = none
    rw [hempty, Std.ExtTreeMap.getElem?_empty]
  | append_singleton txs tx ih =>
    have hcollect : collect (txs ++ [tx]) = (collect txs).merge (ofTx tx) := List.foldl_concat ..
    rw [hcollect, hmerge, Std.ExtTreeMap.getElem?_union, ih, List.reverse_concat,
      List.findSome?_cons]
    cases (field (ofTx tx))[key]? <;> rfl

theorem mem_values_collect {field : ReferenceData → TextMap} (hempty : field ∅ = ∅)
    (hmerge : ∀ a b, field (a.merge b) = field a ∪ field b) {txs : List Tx} {text : String} :
    text ∈ (field (collect txs)).values ↔
      Tx.RegistersLast (fun tx => field (ofTx tx)) txs text := by
  simp only [OrderedMap.mem_values, getElem?_collect hempty hmerge, Tx.RegistersLast]

end ReferenceData

/-- The rows that a block brings to a table of shared texts are those that its transactions
bring. -/
theorem Persist.exists_written_iff {block : Block} {txs : List Tx} {t : Store} {n : TableName}
    (hn : n ∈ TableName.shared) {text : String} :
    (∃ row ∈ written block txs t n, n.key row = .text text) ↔ Tx.Bring txs n text := by
  have htext : ∀ rows : List String, (∃ row ∈ rows, Key.text row = .text text) ↔ text ∈ rows := by
    simp
  simp only [TableName.shared, List.mem_cons, List.not_mem_nil, or_false] at hn
  rcases hn with rfl | rfl | rfl | rfl
  · exact (htext _).trans (Std.ExtTreeSet.mem_toList.trans ReferenceData.mem_signers_collect)
  · exact (htext _).trans (ReferenceData.mem_values_collect rfl fun _ _ => rfl)
  · exact (htext _).trans (ReferenceData.mem_values_collect rfl fun _ _ => rfl)
  · exact (htext _).trans (ReferenceData.mem_values_collect rfl fun _ _ => rfl)

/-! ## Single steps -/

namespace Step

variable {step : Step} {s : Store} {n : TableName}

/-- A shared text stays as it is, under its id. -/
theorem shared_kept (hs : s.Sound) (hn : n ∈ TableName.shared) {entry : Entry n.Row}
    (hentry : entry ∈ (s.get n).entries) : entry ∈ ((step.next s).get n).entries := by
  simp only [TableName.shared, List.mem_cons, List.not_mem_nil, or_false] at hn
  refine mem_next hs hentry (fun row _ _ => ?_) fun htakes => ?_
  · rcases hn with rfl | rfl | rfl | rfl <;> rfl
  · rcases hn with rfl | rfl | rfl | rfl <;> cases step <;> first
      | exact htakes
      | exact htakes.choose_spec.2

/-- Only a block brings shared texts. -/
theorem eq_persist_of_offers (hn : n ∈ TableName.shared) {row : n.Row} (h : step.Offers n row) :
    ∃ block txs, step = .persist block txs := by
  simp only [TableName.shared, List.mem_cons, List.not_mem_nil, or_false] at hn
  cases step with
  | persist block txs => exact ⟨block, txs, rfl⟩
  | markFailed pipeline named height =>
    rcases hn with rfl | rfl | rfl | rfl <;> cases pipeline <;> exact h.elim
  | upsertDenoms | upsertIbcDenoms => rcases hn with rfl | rfl | rfl | rfl <;> simp [Offers] at h
  | _ => rcases hn with rfl | rfl | rfl | rfl <;> exact h.elim

/-- A block that is stored adds the texts that its surviving transactions bring. -/
theorem hasText_persist (hs : s.Sound) (hn : n ∈ TableName.shared) {block : Block}
    {txs : List Tx} (hok : (persist block txs).Succeeds s) {text : String} :
    ((persist block txs).next s).HasText n text ↔
      s.HasText n text ∨ Tx.Bring (Tx.uniqueByHash txs) n text := by
  have hprogress := stored_of_succeeds hs hok
  have hstored : n ∈ storedTables := by
    simp only [TableName.shared, List.mem_cons, List.not_mem_nil, or_false] at hn
    rcases hn with rfl | rfl | rfl | rfl <;> decide
  constructor
  · rintro ⟨entry, hentry, hkey⟩
    by_cases hbrings : Tx.Bring (Tx.uniqueByHash txs) n text
    · exact Or.inr hbrings
    · -- a text that the block does not bring was there before
      have hfree : ∀ row ∈ written block (Tx.uniqueByHash txs) ((persist block txs).next s) n,
          n.key row ≠ .text text :=
        fun row hrow he => hbrings ((exists_written_iff hn).1 ⟨row, hrow, he⟩)
      have hfind := hprogress.sound.find?_eq_some.2 ⟨hentry, hkey⟩
      rw [hprogress.find?_of_free hs hstored hfree] at hfind
      exact Or.inl ⟨entry, Store.mem_of_find? hfind⟩
  · rintro (⟨entry, hentry, hkey⟩ | hbrings)
    · exact ⟨entry, shared_kept hs hn hentry, hkey⟩
    · obtain ⟨row, hrow, hkey⟩ := (exists_written_iff hn).2 hbrings
      obtain ⟨entry, hfind, _⟩ := hprogress.settles hs hstored hrow
      obtain ⟨hentry, hkey'⟩ := Store.mem_of_find? hfind
      exact ⟨entry, hentry, hkey'.trans hkey⟩

end Step

/-- A shared text is there after a step if it was there before or the step brings it. -/
theorem Moment.hasText_next {m : Moment} (hs : m.store.Sound) {n : TableName}
    (hn : n ∈ TableName.shared) {text : String} :
    m.next.HasText n text ↔ m.store.HasText n text ∨ m.Brings n text := by
  obtain ⟨s, step⟩ := m
  constructor
  · intro h
    by_cases hstep : ∃ block txs, step = .persist block txs
    · obtain ⟨block, txs, rfl⟩ := hstep
      by_cases hok : (Step.persist block txs).Succeeds s
      · exact ((Step.hasText_persist hs hn hok).1 h).imp_right
          fun hbrings => ⟨hok, block, txs, rfl, hbrings⟩
      · obtain ⟨t, ht⟩ := (Step.does_persist block txs).rollback hok
        have hnext : next ⟨s, .persist block txs⟩ = s.rollback t := ht
        rw [hnext, Store.HasText, Store.get_rollback] at h
        exact Or.inl h
    · have hnone : ∀ row, ¬ step.Offers n row :=
        fun row hrow => hstep (Step.eq_persist_of_offers hn hrow)
      obtain ⟨entry, hentry, hkey⟩ := h
      exact Or.inl ⟨entry, Step.of_mem_next hs hnone hentry, hkey⟩
  · rintro (⟨entry, hentry, hkey⟩ | ⟨hok, block, txs, rfl, hbrings⟩)
    · exact ⟨entry, Step.shared_kept hs hn hentry, hkey⟩
    · exact (Step.hasText_persist hs hn hok).2 (Or.inr hbrings)

/-! ## Runs -/

namespace Store

variable {s : Store} {n : TableName}

/-- The shared texts after a run are those that its steps bring. -/
theorem hasText_after (steps : List Step) (hn : n ∈ TableName.shared) {text : String} :
    ((∅ : Store).after steps).HasText n text ↔
      ∃ m ∈ (∅ : Store).history steps, m.Brings n text := by
  induction steps using List.reverseRecOn with
  | nil =>
    refine iff_of_false ?_ fun ⟨m, hm, _⟩ => by cases hm
    rintro ⟨entry, hentry, _⟩
    have hentry : entry ∈ ((∅ : Store).get n).entries := hentry
    rw [get_empty] at hentry
    cases hentry
  | append_singleton steps step ih =>
    have hs := (Reachable.empty.after steps).sound
    rw [after_concat, Moment.hasText_next hs hn, ih, history_concat]
    simp only [List.mem_append, List.mem_singleton, or_and_right, exists_or, exists_eq_left]

/-- A shared text stays as it is along a run. -/
theorem Sound.shared_after (hs : s.Sound) (hn : n ∈ TableName.shared) {entry : Entry n.Row}
    (hentry : entry ∈ (s.get n).entries) (steps : List Step) :
    entry ∈ ((s.after steps).get n).entries := by
  induction steps generalizing s with
  | nil => exact hentry
  | cons step rest ih => exact ih (step.keeps_next s hs).1 (Step.shared_kept hs hn hentry)

/-- Addresses that can be sent are found in ascending order, each of those that are stored once. -/
theorem Sound.findAddresses (hs : s.Sound) {asked : List String}
    (hsent : ∀ address ∈ asked, ¬ HasZero address) :
    ∃ found, s.findAddresses asked = .ok found ∧
      found.Pairwise (fun a b => a.row < b.row) ∧
      ∀ entry, entry ∈ found ↔ entry ∈ s.addresses.entries ∧ entry.row ∈ asked := by
  have hask : ¬ ∃ address ∈ asked, HasZero address := fun ⟨address, haddress, hzero⟩ =>
    hsent address haddress hzero
  refine ⟨_, by rw [Store.findAddresses, if_neg hask], ?_, fun entry => ?_⟩
  · apply Table.pairwise_listed
    intro a ha b hb _ _ hrow
    exact (hs.keyed .addresses).eq_of_key ha hb (congrArg Key.text hrow)
  · rw [Table.mem_listed, decide_eq_true_eq]

/-- The shared texts of a run. A table of them has exactly the texts that blocks have brought whose
storing has succeeded, each in one row, and a row stays as it is for good. Of addresses that can be
sent those that have signed are found, in ascending order and once each, and whoever asks for one of
them again finds it under the same id. A text that cannot be sent is refused with all that are asked
for with it. -/
theorem shared_texts_follow_history (steps : List Step) :
    let s := (∅ : Store).after steps
    let history := (∅ : Store).history steps
    (∀ n ∈ TableName.shared,
      (∀ text, s.HasText n text ↔ ∃ m ∈ history, m.Brings n text) ∧
      (∀ a ∈ (s.get n).entries, ∀ b ∈ (s.get n).entries, n.key a.row = n.key b.row → a = b) ∧
      ∀ entry ∈ (s.get n).entries, ∀ later, entry ∈ ((s.after later).get n).entries) ∧
    (∀ asked, (∃ address ∈ asked, HasZero address) →
      s.findAddresses asked = .error (.query .zeroByte)) ∧
    ∀ asked, (∀ address ∈ asked, ¬ HasZero address) →
      ∃ found, s.findAddresses asked = .ok found ∧
        found.Pairwise (fun a b => a.row < b.row) ∧
        (∀ address, (∃ entry ∈ found, entry.row = address) ↔
          address ∈ asked ∧ ∃ m ∈ history, m.Brings .addresses address) ∧
        ∀ entry ∈ found, ∀ later others, entry.row ∈ others →
          (∀ address ∈ others, ¬ HasZero address) →
            ∃ foundLater, (s.after later).findAddresses others = .ok foundLater ∧
              entry ∈ foundLater := by
  intro s history
  have hs : s.Sound := (Reachable.empty.after steps).sound
  have haddresses : TableName.addresses ∈ TableName.shared := by decide
  refine ⟨fun n hn => ⟨fun text => hasText_after steps hn, ?_, ?_⟩, ?_, ?_⟩
  · intro a ha b hb hkey
    exact (hs.keyed n).eq_of_key ha hb hkey
  · intro entry hentry later
    exact hs.shared_after hn hentry later
  · intro asked hzero
    rw [Store.findAddresses, if_pos hzero]
  · intro asked hsent
    obtain ⟨found, hfound, hsorted, hmem⟩ := hs.findAddresses hsent
    refine ⟨found, hfound, hsorted, fun address => ?_, ?_⟩
    · rw [← hasText_after steps haddresses]
      constructor
      · rintro ⟨entry, hentry, rfl⟩
        obtain ⟨hstored, hasked⟩ := (hmem entry).1 hentry
        exact ⟨hasked, entry, hstored, rfl⟩
      · rintro ⟨hasked, entry, hstored, hkey⟩
        have hrow : entry.row = address := Key.text.inj hkey
        exact ⟨entry, (hmem entry).2 ⟨hstored, hrow ▸ hasked⟩, hrow⟩
    · intro entry hentry later others hothers hsent
      have hlater := ((Reachable.empty.after steps).after later).sound
      obtain ⟨foundLater, hfoundLater, _, hmemLater⟩ := hlater.findAddresses hsent
      have hkept := hs.shared_after haddresses ((hmem entry).1 hentry).1 later
      exact ⟨foundLater, hfoundLater, (hmemLater entry).2 ⟨hkept, hothers⟩⟩

/-- Of two transactions with one hash the last brings its texts, and a block that cannot be stored
brings none. -/
theorem shared_texts_follow_history_of_repeated_hash :
    let block : Block := ⟨1, 7, Instant.zero⟩
    let first := Tx.new "h1" 0 (some "alice") [⟨"send", 0, []⟩]
    let last := Tx.new "h1" 0 (some "bob") [⟨"vote", 0, []⟩]
    let broken : Tx := { Tx.new "h2" 0 (some "carol") [⟨"burn", 0, []⟩] with messageTypes := ∅ }
    let steps : List Step := [.registerChain ⟨"a-1", "A"⟩, .persist block [first, last],
      .persist block [broken], .removeChain "a-1"]
    let history := (∅ : Store).history steps
    (∃ m ∈ history, m.Brings .messageTypes "vote") ∧
      (¬ ∃ m ∈ history, m.Brings .messageTypes "send") ∧
      ∃ found, ((∅ : Store).after steps).findAddresses ["alice", "bob", "carol"] = .ok found ∧
        ∀ address, (∃ entry ∈ found, entry.row = address) ↔ address = "bob" := by
  intro block first last broken steps history
  obtain ⟨htexts, _, hasked⟩ := shared_texts_follow_history steps
  have hsent : ∀ address ∈ ["alice", "bob", "carol"], ¬ HasZero address := by decide +kernel
  obtain ⟨found, hfound, _, hmem, _⟩ := hasked _ hsent
  have htypes : ∀ text, ((∅ : Store).after steps).HasText .messageTypes text ↔ text = "vote" := by
    have hentries : (((∅ : Store).after steps).get .messageTypes).entries = [⟨1, "vote"⟩] := by
      decide +kernel
    simp [HasText, hentries, TableName.key, eq_comm]
  have haddresses : ∀ text, ((∅ : Store).after steps).HasText .addresses text ↔ text = "bob" := by
    have hentries : (((∅ : Store).after steps).get .addresses).entries = [⟨1, "bob"⟩] := by
      decide +kernel
    simp [HasText, hentries, TableName.key, eq_comm]
  refine ⟨?_, ?_, found, hfound, fun address => ?_⟩
  · rw [← (htexts .messageTypes (by decide)).1, htypes]
  · rw [← (htexts .messageTypes (by decide)).1, htypes]
    decide
  · rw [hmem, ← (htexts .addresses (by decide)).1, haddresses]
    exact and_iff_right_of_imp fun he => by simp [he]

/-- An address that has signed is not found when it is asked for together with a text that cannot be
sent. -/
theorem shared_texts_follow_history_fails_of_zero :
    ¬ ∀ (steps : List Step) (asked : List String),
      ∃ found, ((∅ : Store).after steps).findAddresses asked = .ok found ∧
        ∀ address, (∃ entry ∈ found, entry.row = address) ↔
          address ∈ asked ∧ ∃ m ∈ (∅ : Store).history steps, m.Brings .addresses address := by
  intro h
  let signed := Tx.new "h1" 0 (some "alice") []
  let steps : List Step := [.registerChain ⟨"a-1", "A"⟩, .persist ⟨1, 7, Instant.zero⟩ [signed]]
  obtain ⟨found, hfound, _⟩ := h steps ["alice", "\x00"]
  have hrefused : ((∅ : Store).after steps).findAddresses ["alice", "\x00"] =
      .error (.query .zeroByte) := if_pos (by decide +kernel)
  cases hrefused.symm.trans hfound

end Store

end BlockArchive
